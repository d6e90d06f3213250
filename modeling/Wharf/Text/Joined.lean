/-!
# Lists in one line

`joined` writes texts one behind the other with commas between them.
-/

namespace Wharf.Text

/-- The texts with commas between them. -/
def joined : List String → String
  | [] => ""
  | [text] => text
  | text :: rest => text ++ "," ++ joined rest

end Wharf.Text
