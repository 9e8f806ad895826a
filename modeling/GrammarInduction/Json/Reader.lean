import GrammarInduction.Json.Lexeme

/-!
# Reading JSON

One pass over the lexemes of a document. The state is what may come next, together with the stack of
containers that are open, innermost first; so nesting is not limited.
-/

namespace GrammarInduction.Json

/-- An open container and what it holds so far, latest first. -/
inductive Opened where
  | array (items : List Json)
  /-- The key waits for its value. -/
  | object (members : List (List Nat × Json)) (key : List Nat)

/-- What may come next. -/
inductive Awaits where
  /-- A value; after an opening bracket, as `first` says, also the closing one. -/
  | value (first : Bool) (stack : List Opened)
  /-- A key of an object with these members; after an opening brace also the closing one. -/
  | key (first : Bool) (members : List (List Nat × Json)) (stack : List Opened)
  /-- The colon after a key. -/
  | colon (members : List (List Nat × Json)) (key : List Nat) (stack : List Opened)
  /-- A comma or a closing mark, or the end. -/
  | next (value : Json) (stack : List Opened)

/-- Takes a lexeme in, unless it may not come. -/
def Awaits.take? : Awaits → Lexeme → Option Awaits
  | value _ stack, .openArray => some (value true (.array [] :: stack))
  | value _ stack, .openObject => some (key true [] stack)
  | value _ stack, .string codes => some (next (.string codes) stack)
  | value _ stack, .scalar v => some (next v stack)
  | value true (.array _ :: stack), .closeArray => some (next (.array []) stack)
  | key _ members stack, .string k => some (colon members k stack)
  | key true _ stack, .closeObject => some (next (.object []) stack)
  | colon members k stack, .colon => some (value false (.object members k :: stack))
  | next v (.array items :: stack), .comma => some (value false (.array (v :: items) :: stack))
  | next v (.array items :: stack), .closeArray => some (next (.array (v :: items).reverse) stack)
  | next v (.object members k :: stack), .comma => some (key false ((k, v) :: members) stack)
  | next v (.object members k :: stack), .closeObject =>
    some (next (.object ((k, v) :: members).reverse) stack)
  | _, _ => none

/-- The value that is complete, if nothing is open. -/
def Awaits.result? : Awaits → Option Json
  | next v [] => some v
  | _ => none

/-- The value that the lexemes of a document spell. -/
def ofLexemes? (lexemes : List Lexeme) : Option Json :=
  (lexemes.foldlM Awaits.take? (.value false [])).bind Awaits.result?

/-- Reads a document: one value with nothing but white space around it. -/
def parse? (text : String) : Option Json :=
  (Lexeme.scan text.toList).bind ofLexemes?

end GrammarInduction.Json
