namespace CountedHeap.Text

inductive Layout where
  | line
  | lines
  deriving DecidableEq, Repr

/-- Field values are given as text in the same layout; over lines they move in with their field. -/
def record (layout : Layout) (name : String) (fields : List (String × String)) : String :=
  match layout with
  | .line =>
    let written := fields.map fun (field, value) => field ++ ": " ++ value
    name ++ " \x7b " ++ ", ".intercalate written ++ " \x7d"
  | .lines =>
    let written := fields.map fun (field, value) =>
      "    " ++ field ++ ": " ++ "\n    ".intercalate (value.splitOn "\n") ++ ",\n"
    name ++ " \x7b\n" ++ String.join written ++ "\x7d"

end CountedHeap.Text
