import TagsFile.Tag.Basic

/-!
# Tag lines in order

A tags file holds one line for each tag, in the order of the code points of the lines, which is the
order of their bytes.
-/

namespace TagsFile

/-- A tags file: its lines, each with a line break after it. -/
def renderLines (lines : List Text) : Text := Text.join "\n" lines ++ "\n"

/-- Tags in the order in which they were found. -/
structure TagIndex where
  tags : List RawTag := []

namespace TagIndex

def size (index : TagIndex) : Nat := index.tags.length

def add (index : TagIndex) (tags : List RawTag) : TagIndex := ⟨index.tags ++ tags⟩

/-- The lines of the index with paths seen from `base`, or the fault of the first tag that cannot be
printed. -/
def lines (index : TagIndex) (base : Text) : Except PrintFault (List Text) :=
  (index.tags.mapM (Tag.lineFrom base)).map (List.mergeSort · Text.le)

/-- The tags file of the index. -/
def render (index : TagIndex) (base : Text) : Except PrintFault Text :=
  (index.lines base).map renderLines

end TagIndex
end TagsFile
