import TagsFile.Text.CodePoint

/-!
# Usage and help
-/

namespace TagsFile
namespace Usage

def programName : Text := "ptags"

def version : Text := "0.1.0"

/-- Lines of text, each with a line break behind it. -/
def lines (texts : List Text) : Text := texts.flatMap fun t : Text => t ++ "\n"

/-- How the program is called. -/
def synopsis : List Text :=
  ["usage: ptags [-h] [-v] [-f OUTFILE] [-R] [--base BASE] [--cache-dir CACHE_DIR]",
   "             [--no-cache] [--verbose] [--error-format \x7btext,json\x7d]",
   "             [paths ...]"]

/-- What the help text says below the synopsis. -/
def details : List String :=
  ["",
   "Generate a sorted tags file for PHP namespaces, classes, functions and properties",
   "",
   "positional arguments:",
   "  paths                 Files, or directories with -R",
   "",
   "options:",
   "  -h, --help            show this help message and exit",
   "  -v, --version         show program's version number and exit",
   "  -f OUTFILE, --file OUTFILE",
   "                        Output file, or '-' for stdout (default: tags)",
   "  -R, --recurse         Recurse into directories",
   "  --base BASE           Directory that tag paths are made relative to",
   "                        (default: the output file's directory, or the current",
   "                        directory for stdout)",
   "  --cache-dir CACHE_DIR",
   "                        Cache directory (default: $PTAGS_CACHE_DIR or",
   "                        ~/.ptags)",
   "  --no-cache            Neither read nor write the per-file cache",
   "  --verbose             Log cache and parse activity to stderr",
   "  --error-format \x7btext,json\x7d",
   "                        How fatal errors are reported on stderr (default:",
   "                        text)",
   "",
   "Version: ptags 0.1.0",
   "",
   "Examples:",
   "    ptags -R .                           # Index the current project into ./tags",
   "    ptags -f build/tags -R src lib       # Write tags elsewhere (paths stay relative to it)",
   "    ptags -f - src/Foo.php               # Print to stdout",
   "",
   "Cache:",
   "    Results are cached per file under ~/.ptags (override with $PTAGS_CACHE_DIR).",
   "    A file is re-parsed only when it is newer than its cache entry.",
   "    Use --no-cache to always re-parse.",
   "",
   "Configuration:",
   "    A .ptags.json file in the working directory may set",
   "    \"extensions\" and \"excludePatterns\" for -R scans.",
   "        "]

/-- The help text. -/
def help : Text := lines (synopsis ++ details.map Text.ofString)

end Usage
end TagsFile
