import DeskCalc.Options
import DeskCalc.Token.Scan

/-!
# Reading tokens under a strictness

`readTokens` turns the pieces of a source text into the tokens a compiler sees. Comments are
dropped. What does not keep POSIX passes, passes with a warning, or is refused, as the strictness
says. A warning is handed over together with the first token that follows it, and a refused piece
is an error token that carries its notice.
-/

namespace DeskCalc

/-- A token together with what was noticed on the way to it. -/
structure Reading where
  token : Token
  /-- The warnings found since the token before, in order. -/
  warnings : List Notice
  /-- Why the token is an error. -/
  error : Option Notice
deriving DecidableEq, Repr

namespace Reading

/-- A piece of text that is refused. -/
def refuse (warnings : List Notice) (flaw : Flaw) (span : Span) : Reading :=
  ⟨⟨.error, "", span⟩, warnings, some ⟨flaw, span⟩⟩

/-- A piece of text that is a token. -/
def accept (warnings : List Notice) (kind : Token.Kind) (p : Scan.Piece) : Reading :=
  ⟨⟨kind, p.text, p.span⟩, warnings, none⟩

/-- The readings of some pieces, where `pending` are the warnings since the token before. -/
def ofPieces (mode : Strictness) : List Notice → List Scan.Piece → List Reading
  | _, [] => []
  | pending, p :: ps =>
    match p.shape with
    | .broken flaw => refuse pending flaw p.span :: ofPieces mode [] ps
    | .token kind none => accept pending kind p :: ofPieces mode [] ps
    | .token kind (some v) =>
      match mode with
      | .lenient => accept pending kind p :: ofPieces mode [] ps
      | .warn => accept (pending ++ [⟨.posix v p.text, p.span⟩]) kind p :: ofPieces mode [] ps
      | .strict => refuse pending (.posix v p.text) p.span :: ofPieces mode [] ps
    | .comment none => ofPieces mode pending ps
    | .comment (some v) =>
      match mode with
      | .lenient => ofPieces mode pending ps
      | .warn => ofPieces mode (pending ++ [⟨.posix v p.text, p.span⟩]) ps
      | .strict => refuse pending (.posix v p.text) p.span :: ofPieces mode [] ps

end Reading

/-- The tokens of a source text, up to and including its end. -/
def readTokens (mode : Strictness) (source : String) : List Reading :=
  Reading.ofPieces mode [] (scan source)

end DeskCalc
