import LayeredConfig.Json.Printer
import LayeredConfig.Loader

/-! # Load reports

    What became of the files of a load, and the names that its settings need from
    outside. Written as JSON, the lists of a report keep their order: the files that
    were applied, those that were missing, those that were skipped, the names.
-/

namespace LayeredConfig

/-- The outcome of a load. -/
structure LoadReport where
  processed : List Path
  missing : List Path
  skipped : List Path
  externals : List String
  deriving DecidableEq, Repr

/-- The outcome of a load so far. -/
def Loader.report (l : Loader) : LoadReport where
  processed := l.files.processed
  missing := l.files.missing
  skipped := l.files.skipped
  externals := l.tracker.externals.keys

/-- The report as JSON over several lines. -/
def LoadReport.pretty (r : LoadReport) : List Char :=
  let texts (items : List String) : Value := .array (items.map .string)
  let paths (items : List Path) : Value := texts (items.map fun p => String.ofList p.text)
  Json.prettyAt 0 (.object
    [("processed", paths r.processed), ("missing", paths r.missing), ("skipped", paths r.skipped),
     ("externals", texts r.externals)])

end LayeredConfig
