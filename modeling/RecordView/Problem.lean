import RecordView.Location
import RecordView.Types.Primitive

/-! What can be wrong with a description, and the wording of every message and hint. -/
namespace RecordView

/-- The classes into which diagnostics fall. -/
inductive Problem.Kind where
  | general
  | malformed
  | unclosedComment
  | layout
  | duplicateName
  | unknownType
  | expression
  | condition
  | setting
  deriving DecidableEq, Repr

/-! ## Statements -/

/-- What a statement needs at some place. -/
inductive Wanted where
  | symbol (text : String)
  | parentName
  | fieldName
  | semicolonAfterField (name : String)
  | semicolonAfterUnion
  | fieldDeclaration
  | backingType
  | constantName
  | commaOrBrace
  | endOfLine
  deriving DecidableEq, Repr

def Wanted.text : Wanted → String
  | .symbol text => s!"'{text}'"
  | .parentName => "parent struct name"
  | .fieldName => "field name"
  | .semicolonAfterField name => s!"';' after field '{name}'"
  | .semicolonAfterUnion => "';' after anonymous union"
  | .fieldDeclaration => "field declaration"
  | .backingType => "enum backing type"
  | .constantName => "enum constant name"
  | .commaOrBrace => "',' or '\x7d'"
  | .endOfLine => "end of line"

/-- What stands there instead. -/
inductive Found where
  | endOfFile
  | endOfLine
  | text (t : String)
  deriving DecidableEq, Repr

def Found.display : Found → String
  | .endOfFile => "end of file"
  | .endOfLine => "end of line"
  | .text t => s!"'{t}'"

/-- Statements that cannot be read. -/
inductive Malformed where
  | expected (wanted : Wanted) (found : Found)
  | strayCharacter (text : String)
  | strayToken (text : String)
  | typedefTarget
  | unknownDirective (text : String)
  | pragmaName
  | pragmaUnclosed (name : String)
  | pragmaValue (name : String)
  | unionOutside
  | unnamedStruct
  | unionParent
  | typedefName
  | incomplete (form : Form)
  | nestedDeclaration (keyword : String)
  | nestedUnion
  | bitCountTwice
  deriving DecidableEq, Repr

def Malformed.message : Malformed → String
  | .expected wanted found => s!"expected {wanted.text}, found {found.display}"
  | .strayCharacter text => s!"unexpected character '{text}'"
  | .strayToken text => s!"unexpected '{text}'"
  | .typedefTarget => "typedef supports only struct and union"
  | .unknownDirective text => s!"invalid preprocessor directive '{text}'"
  | .pragmaName => "expected pragma name"
  | .pragmaUnclosed name => s!"missing ')' in pragma {name}"
  | .pragmaValue name => s!"expected '(' after pragma {name}"
  | .unionOutside => "anonymous union must be declared inside a struct"
  | .unnamedStruct => "struct requires a name"
  | .unionParent => "a union cannot extend a struct"
  | .typedefName => "typedef requires a name after '\x7d'"
  | .incomplete form => s!"incomplete {form.word} at end of file"
  | .nestedDeclaration keyword => s!"cannot declare {keyword} inside a struct"
  | .nestedUnion => "unions cannot be nested"
  | .bitCountTwice => "bit count given twice"

def Malformed.hint : Malformed → Option String
  | .strayToken _ => some "expected struct, union, enum, typedef or #pragma"
  | .unknownDirective _ => some "supported directives are #if, #else, #endif, #error and #pragma"
  | .pragmaValue name => some s!"write #pragma {name}(value)"
  | .incomplete _ => some "add the closing '\x7d;'"
  | .nestedDeclaration _ =>
    some "declare it before the enclosing struct and use its name as the field type"
  | _ => none

/-! ## Layout -/

/-- Declarations that break a rule of the layout. -/
inductive Misfit where
  | extendsFlexible (parent : String)
  | emptyUnion
  | empty (form : Form) (name : String)
  | afterFlexible (tail : String)
  | widthOutside (bits : Nat)
  | widthMissing (name : String)
  | bitArray
  | booleanShape
  | charBits
  | aggregateBits (type : String)
  | nestedFlexible (type : String)
  | numberBits (p : Primitive)
  | bitsTooWide (bits : Nat) (p : Primitive)
  | flexibleInUnion
  | flexibleElement
  | backingType (name : String)
  deriving DecidableEq, Repr

/-- The widest bit field, in bits. -/
def maxBits : Nat := 32

def Misfit.message : Misfit → String
  | .extendsFlexible parent => s!"cannot extend '{parent}', it ends in a flexible array member"
  | .emptyUnion => "empty union"
  | .empty form name => s!"empty {form.word} '{name}'"
  | .afterFlexible tail => s!"flexible array member '{tail}' must be the last field"
  | .widthOutside bits => s!"bitfield width {bits} is outside 1..{maxBits}"
  | .widthMissing _ => "Uint fields require a bit count"
  | .bitArray => "bitfield arrays are not supported"
  | .booleanShape => "Boolean fields cannot be arrays or bitfields"
  | .charBits => "char fields cannot be bitfields"
  | .aggregateBits type => s!"'{type}' fields cannot be bitfields"
  | .nestedFlexible type => s!"'{type}' ends in a flexible array member and cannot be nested"
  | .numberBits p => s!"{p.name} fields cannot be bitfields"
  | .bitsTooWide bits p => s!"{bits} bits do not fit in {p.name}"
  | .flexibleInUnion => "a union cannot contain a flexible array member"
  | .flexibleElement => "flexible array member must be uint8_t or int8_t"
  | .backingType name => s!"invalid enum backing type '{name}'"

def Misfit.hint : Misfit → Option String
  | .widthMissing name => some s!"write Uint:N {name}; or Uint {name}:N;"
  | .numberBits _ => some "bitfields require an integer type of at most 32 bits"
  | .backingType _ => some "use an integer type of at most 32 bits"
  | _ => none

/-! ## Expressions -/

/-- Where the reading of an expression stops against its grammar. -/
inductive ExprFault where
  | unexpected (text : String)
  | endOfExpression
  | valueExpected (text : String)
  | colonExpected
  | closeExpected
  | definedName
  | definedClose
  deriving DecidableEq, Repr

/-- Why an expression has no value. -/
inductive ExprProblem where
  | empty
  | fault (f : ExprFault)
  | undefined (name : String)
  | badNumber (text : String)
  | notNumber (text : String)
  | divisionByZero
  | moduloByZero
  | notFinite
  | notScalar
  | countKind (what shown : String)
  | countLow (what : String) (n : Int)
  | countHigh (what : String) (n : Int)
  | implicitValue (name : String)
  deriving DecidableEq, Repr

def ExprFault.message : ExprFault → String
  | .unexpected text => s!"unexpected '{text}' in expression"
  | .endOfExpression => "unexpected end of expression"
  | .valueExpected text => s!"expected value, got '{text}'"
  | .colonExpected => "expected ':' in conditional expression"
  | .closeExpected => "expected ')' to close expression"
  | .definedName => "expected identifier after 'defined'"
  | .definedClose => "expected ')' after defined(NAME"

def ExprProblem.message : ExprProblem → String
  | .empty => "empty expression"
  | .fault f => f.message
  | .undefined name => s!"'{name}' is not defined"
  | .badNumber text => s!"invalid number '{text}'"
  | .notNumber text => s!"'{text}' is not a number"
  | .divisionByZero => "division by zero"
  | .moduloByZero => "modulo by zero"
  | .notFinite => "expression result is not finite"
  | .notScalar => "expression must be a number, string or boolean"
  | .countKind what shown => s!"invalid {what} '{shown}'"
  | .countLow what n => s!"invalid {what} {n}"
  | .countHigh what n => s!"{what} {n} too large"
  | .implicitValue name => s!"'{name}' needs a value"

def ExprProblem.hint : ExprProblem → Option String
  | .implicitValue _ => some "implicit values follow only integer constants"
  | _ => none

/-! ## Conditions -/

/-- Directives out of balance, and the text of an `#error` line. -/
inductive Unbalanced where
  | strayElse
  | strayEndif
  | secondElse (opened : Location)
  | unterminated
  | raised (text : String)
  deriving DecidableEq, Repr

def Unbalanced.message : Unbalanced → String
  | .strayElse => "#else without #if"
  | .strayEndif => "#endif without #if"
  | .secondElse _ => "duplicate #else"
  | .unterminated => "unterminated #if at end of file"
  | .raised text => if text.isEmpty then "#error" else text

def Unbalanced.hint : Unbalanced → Option String
  | .secondElse opened => some s!"the #if at {opened.text} already has an #else"
  | .unterminated => some "add a matching #endif"
  | _ => none

/-! ## Settings -/

/-- Settings that are refused. -/
inductive Refusal where
  | unknown (name : String)
  | tooLate (name : String)
  | notBoolean (name value : String)
  | notChoice (name value : String) (choices : List String)
  | pack (value : String)
  | language (value : String)
  | platform (value : String)
  | noClass
  | noInterface (name : String)
  | noClause
  deriving DecidableEq, Repr

def Refusal.message : Refusal → String
  | .unknown name => s!"unknown pragma '{name}'"
  | .tooLate name => s!"{name} must be set before any declarations"
  | .notBoolean name value => s!"invalid {name} '{value}' specified"
  | .notChoice name value _ => s!"invalid {name} '{value}' specified"
  | .pack value => s!"invalid pack '{value}' specified"
  | .language value => s!"invalid language '{value}' specified"
  | .platform value => s!"invalid platform '{value}' specified"
  | .noClass => "extends requires a class name"
  | .noInterface name => s!"{name} requires an interface name or none"
  | .noClause => "import requires an import clause"

def Refusal.hint : Refusal → Option String
  | .tooLate _ => some "move the pragma to the top of the file"
  | .notBoolean .. => some "use true or false"
  | .notChoice _ _ choices => some ("use one of: " ++ ", ".intercalate choices)
  | .pack _ => some "use 1, 2, 4, 8 or 16"
  | .language _ => some "use javascript or typescript, optionally followed by /xs, /node or /web"
  | .platform _ => some "use xs, node or web"
  | _ => none

/-! ## All of them -/

/-- The cause of a diagnostic. `other` is a cause in a caller's own words. -/
inductive Problem where
  | malformed (p : Malformed)
  | unclosedComment
  | layout (p : Misfit)
  | duplicate (what name : String)
  | unknownType (name : String) (similar : List String)
  | expression (p : ExprProblem)
  | condition (p : Unbalanced)
  | setting (p : Refusal)
  | other (kind : Problem.Kind) (message : String) (hint : Option String)
  deriving DecidableEq, Repr

namespace Problem

def kind : Problem → Kind
  | malformed _ => .malformed
  | unclosedComment => .unclosedComment
  | layout _ => .layout
  | duplicate .. => .duplicateName
  | unknownType .. => .unknownType
  | expression _ => .expression
  | condition _ => .condition
  | setting _ => .setting
  | other k .. => k

def message : Problem → String
  | malformed p => p.message
  | unclosedComment => "unterminated block comment"
  | layout p => p.message
  | duplicate what name => s!"duplicate {what} name '{name}'"
  | unknownType name _ => s!"unknown type '{name}'"
  | expression p => p.message
  | condition p => p.message
  | setting p => p.message
  | other _ m _ => m

def hint : Problem → Option String
  | malformed p => p.hint
  | unclosedComment => some "add closing */ to terminate the comment"
  | layout p => p.hint
  | duplicate .. => none
  | unknownType _ similar => similar.head?.map fun s => s!"did you mean '{s}'?"
  | expression p => p.hint
  | condition p => p.hint
  | setting p => p.hint
  | other _ _ h => h

end Problem
end RecordView
