/-! Line ends. A file is read with every carriage return, and every carriage return
before a newline, taken as one newline. -/
namespace NilGuard.Text

/-- `afterReturn` says that the previous character was a carriage return, so that a
newline now belongs to the line end already written. -/
def unifyNewlines (afterReturn : Bool) : List Char → List Char
  | [] => []
  | '\r' :: cs => '\n' :: unifyNewlines true cs
  | '\n' :: cs => if afterReturn then unifyNewlines false cs else '\n' :: unifyNewlines false cs
  | c :: cs => c :: unifyNewlines false cs

/-- The text of a file with one kind of line end. -/
def fileText (s : String) : String :=
  String.ofList (unifyNewlines false s.toList)

end NilGuard.Text
