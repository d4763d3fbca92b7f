/-
Search and splitting. `pieces` cuts a text at the leftmost occurrences of a separator that do
not overlap.
-/

namespace JsonTemplate.Text

/-- Whether `part` stands somewhere in the text. -/
def occursIn (part : List Char) : List Char → Bool
  | [] => part.isEmpty
  | c :: rest => part.isPrefixOf (c :: rest) || occursIn part rest

/-- Cuts at a separator that is not empty. `skip` characters of a separator are still to be
passed over, and `piece` holds the current piece in reverse. -/
def piecesFrom (separator : List Char) (skip : Nat) (piece : List Char) :
    List Char → List (List Char)
  | [] => [piece.reverse]
  | c :: rest =>
    match skip with
    | skip + 1 => piecesFrom separator skip piece rest
    | 0 =>
      if separator.isPrefixOf (c :: rest) then
        piece.reverse :: piecesFrom separator (separator.length - 1) [] rest
      else piecesFrom separator 0 (c :: piece) rest

/-- An empty separator stands before and after every character. -/
def pieces (separator text : List Char) : List (List Char) :=
  if separator.isEmpty then [] :: text.map ([·]) ++ [[]] else piecesFrom separator 0 [] text

end JsonTemplate.Text
