/-!
# Aligned columns

Listings put addresses and labels into columns.  `alignRight` fills a text up with spaces on its
left until it is as wide as its column; a text that is wider stays as it is.
-/

namespace Stepwise.Text

/-- The text, after as many spaces as it lacks to be `width` characters wide. -/
def alignRight (width : Nat) (s : String) : String :=
  String.ofList (List.replicate (width - s.length) ' ') ++ s

end Stepwise.Text
