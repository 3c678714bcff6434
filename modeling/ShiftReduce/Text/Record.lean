/-
  Record text: a named list of labelled values on one line, the form in which
  values are shown when the parts matter more than the meaning.
-/

namespace ShiftReduce.Text

/-- A record: its name, then each label with its value between braces. -/
def record (name : String) (fields : List (String × String)) : String :=
  let parts := fields.map fun field => field.1 ++ ": " ++ field.2
  name ++ " \x7b " ++ ", ".intercalate parts ++ " \x7d"

/-- A list of values between brackets. -/
def listing (values : List String) : String := "[" ++ ", ".intercalate values ++ "]"

/-- A text padded with spaces on the right to at least `width` characters. -/
def padRight (width : Nat) (text : String) : String :=
  text ++ String.ofList (List.replicate (width - text.length) ' ')

/-- A text padded with spaces on the left to at least `width` characters. -/
def padLeft (width : Nat) (text : String) : String :=
  String.ofList (List.replicate (width - text.length) ' ') ++ text

end ShiftReduce.Text
