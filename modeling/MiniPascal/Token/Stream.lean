import MiniPascal.Token.Lexer

/-! # Token streams

A token stream is the sequence of outcomes of a lexer, taken one by one. The last outcome of a
text is its end of file, and the stream repeats it for ever. It remembers the tokens taken, which
are the tokens the log lists: a repeated end of file is not listed again. -/
set_option autoImplicit false
namespace MiniPascal

/-- The outcomes still to come, and the tokens taken so far, the latest first. -/
structure TokenStream where
  pending : List (Except LexError Token)
  taken : List Token

namespace TokenStream

def ofString (source : String) : TokenStream :=
  ⟨Lexer.outcomes source, []⟩

/-- Takes the next outcome; behind the last one, the latest token comes again. -/
def advance (stream : TokenStream) : Except LexError Token × TokenStream :=
  match stream.pending with
  | [] => (.ok (stream.taken.headD Token.initial), stream)
  | .ok token :: rest => (.ok token, ⟨rest, token :: stream.taken⟩)
  | .error error :: rest => (.error error, ⟨rest, stream.taken⟩)

end TokenStream
end MiniPascal
