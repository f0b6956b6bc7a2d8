/-
  What can go wrong, and how it is told.

  A `Diagnostic` is a classified failure: a `Cause` and the best-known source line (zero when there is
  none).  A cause says what happened in the words of the language; its kind and its message are read off
  it by `Cause.kind` and `Cause.message`, so no message text is spread over the passes.

  A `Failure` is what a pass hands on: a diagnostic, an unclassified failure of the world outside (a
  reader, a writer), a refused configuration, or one of these inside a label.  The text of a labelled
  failure is fixed when the label is put on; a line that is filled in later changes the diagnostic
  inside and not that text.
-/
import StoneLang.Text.Quoted
import StoneLang.Tree.Kind
import StoneLang.Value.Kind

namespace StoneLang

/-- The class of a diagnostic. -/
inductive DiagnosticKind where
  | unclassified | syntaxError | undefinedName | arity | typeError | member | assignmentTarget
  | arithmetic | stackExhausted
deriving DecidableEq, Repr

namespace DiagnosticKind

/-- The eight classes that a failure of a program can have, in the order of their numbers. -/
def classified : List DiagnosticKind :=
  [.syntaxError, .undefinedName, .arity, .typeError, .member, .assignmentTarget, .arithmetic,
    .stackExhausted]

/-- The name of a class, with which the text of a diagnostic starts. -/
def label : DiagnosticKind → Text
  | .unclassified => text "Error"
  | .syntaxError => text "SyntaxError"
  | .undefinedName => text "UndefinedNameError"
  | .arity => text "ArityError"
  | .typeError => text "TypeError"
  | .member => text "MemberError"
  | .assignmentTarget => text "AssignmentTargetError"
  | .arithmetic => text "ArithmeticError"
  | .stackExhausted => text "StackExhaustedError"

/-- The class with a given number; a number of no class stands for an unclassified failure. -/
def ofCode (code : Int) : DiagnosticKind :=
  if code < 1 then .unclassified else (classified[code.toNat - 1]?).getD .unclassified

end DiagnosticKind

/-- What happened. -/
inductive Cause where
  -- Cutting a line into tokens.
  | badToken (byte : UInt8)
  | unterminatedString
  | integerTooLarge (digits : Text)
  -- Matching tokens against a rule.
  | unexpected (expected actual : Text) (atEnd : Bool)
  -- Building a node from its children.
  | childCount (node : NodeKind) (wanted : Text) (found : Nat)
  | nameWanted (node : NodeKind) (found : Text)
  | parametersWanted (keyword : Text)
  | blockWanted (keyword : Text)
  | notPostfix (found : Text)
  | classBodyWanted
  -- Nesting, of any pass.
  | tooDeep (pass : Text) (limit : Int)
  -- Names and members.
  | undefinedName (name : Text)
  | noReceiver (member : Text)
  | noMember (owner member : Text)
  | noClassMember (owner member : Text)
  | noMemberAccess (member : Text) (target : ValueKind)
  | undefinedSuperclass (name : Text)
  | superclassKind (name : Text) (found : ValueKind)
  -- Operators.
  | cannotNegate (operand : ValueKind)
  | operandKinds (operator : Text) (left right : ValueKind)
  | divisionByZero
  | moduloByZero
  | unsupportedOperator (operator : Text)
  -- Assignment.
  | notAssignable (target : Text)
  | methodAssignment (name : Text)
  | slotRefused (name reason : Text)
  | bindingRefused (name reason : Text)
  | noMemberStore (member : Text) (target : ValueKind)
  -- Arrays.
  | cannotIndex (target : ValueKind)
  | indexKind (found : ValueKind)
  | indexOutOfBounds (index : Int64) (length : Nat)
  -- Calls.
  | argumentCount (callee : Text) (wanted : Int) (found : Nat)
  | notCallable (target : ValueKind)
  | notEvaluable (node : NodeKind)
  -- Natives.
  | noLength (found : ValueKind)
  | notAnInteger (found : Text)
  | noInteger (found : ValueKind)
  /-- A failure that the host of the language reports in its own words. -/
  | reported (kind : DiagnosticKind) (message : Text)
deriving DecidableEq, Repr

namespace Cause

/-- The class of a cause. -/
def kind : Cause → DiagnosticKind
  | badToken _ | unterminatedString | integerTooLarge _ | unexpected .. | childCount .. | nameWanted ..
  | parametersWanted _ | blockWanted _ | notPostfix _ | classBodyWanted => .syntaxError
  | tooDeep .. => .stackExhausted
  | undefinedName _ | undefinedSuperclass _ => .undefinedName
  | noMember .. | noClassMember .. => .member
  | noReceiver _ | noMemberAccess .. | superclassKind .. | cannotNegate _ | operandKinds ..
  | unsupportedOperator _ | noMemberStore .. | cannotIndex _ | indexKind _ | indexOutOfBounds ..
  | notCallable _ | notEvaluable _ | noLength _ | notAnInteger _ | noInteger _ => .typeError
  | divisionByZero | moduloByZero => .arithmetic
  | notAssignable _ | methodAssignment _ | slotRefused .. | bindingRefused .. => .assignmentTarget
  | argumentCount .. => .arity
  | reported kind _ => kind

/-- The message of a cause, without its class and line. -/
def message : Cause → Text
  | badToken byte => text "bad token " ++ Text.quoted [byte]
  | unterminatedString => text "unterminated string literal"
  | integerTooLarge digits => text "integer literal " ++ digits ++ text " out of range"
  | unexpected expected actual atEnd =>
    text "expected " ++ expected
      ++ (if atEnd then text " but reached end of input" else text " but found " ++ actual)
  | childCount node wanted found =>
    node.label ++ text " needs " ++ wanted ++ text " children, got " ++ Decimal.ofNat found
  | nameWanted node found => node.label ++ text " expects a name, got " ++ found
  | parametersWanted keyword => keyword ++ text " expects a parameter list"
  | blockWanted keyword => keyword ++ text " expects a block"
  | notPostfix found => found ++ text " cannot follow an operand"
  | classBodyWanted => text "class expects a body"
  | tooDeep pass limit => pass ++ text " exceeded the maximum depth of " ++ Decimal.ofInt limit
  | undefinedName name => text "undefined name " ++ name
  | noReceiver member => text "member " ++ member ++ text " used without an object receiver"
  | noMember owner member => owner ++ text " has no member " ++ member
  | noClassMember owner member => text "class " ++ owner ++ text " has no member " ++ member
  | noMemberAccess member target => text "cannot access ." ++ member ++ text " on " ++ target.label
  | undefinedSuperclass name => text "undefined superclass " ++ name
  | superclassKind name found =>
    text "superclass " ++ name ++ text " is a " ++ found.label ++ text ", not a class"
  | cannotNegate operand => text "cannot negate " ++ operand.label
  | operandKinds operator left right =>
    text "bad operand types for " ++ operator ++ text ": " ++ left.label ++ text " and " ++ right.label
  | divisionByZero => text "division by zero"
  | moduloByZero => text "modulo by zero"
  | unsupportedOperator operator => text "unsupported operator " ++ operator
  | notAssignable target => text "cannot assign to " ++ target
  | methodAssignment name => text "cannot assign to method " ++ name
  | slotRefused name reason => text "cannot assign to " ++ name ++ text ": " ++ reason
  | bindingRefused name reason => text "cannot bind " ++ name ++ text ": " ++ reason
  | noMemberStore member target => text "cannot assign ." ++ member ++ text " on " ++ target.label
  | cannotIndex target => text "cannot index " ++ target.label
  | indexKind found => text "array index must be an integer, got " ++ found.label
  | indexOutOfBounds index length =>
    text "index " ++ Decimal.ofInt64 index ++ text " out of bounds for length " ++ Decimal.ofNat length
  | argumentCount callee wanted found =>
    callee ++ text " expects " ++ Decimal.ofInt wanted ++ text " arguments, got " ++ Decimal.ofNat found
  | notCallable target => target.label ++ text " is not callable"
  | notEvaluable node => text "cannot evaluate " ++ node.label
  | noLength found => text "length of " ++ found.label
  | notAnInteger found => text "to_int: " ++ Text.quoted found ++ text " is not an integer"
  | noInteger found => text "to_int of " ++ found.label
  | reported _ message => message

def expected : Cause → Text
  | unexpected expected _ _ => expected
  | _ => []

def actual : Cause → Text
  | unexpected _ actual _ => actual
  | _ => []

def atEnd : Cause → Bool
  | unexpected _ _ atEnd => atEnd
  | _ => false

end Cause

/-- A classified failure. -/
structure Diagnostic where
  cause : Cause
  /-- The best-known source line, zero when none is known. -/
  line : Int
deriving DecidableEq, Repr

namespace Diagnostic

/-- The class of a diagnostic. -/
def kind (d : Diagnostic) : DiagnosticKind := d.cause.kind

/-- The whole text of a diagnostic: class, message, and the line when one is known. -/
def message (d : Diagnostic) : Text :=
  d.kind.label ++ text ": " ++ d.cause.message
    ++ (if 0 < d.line then text " at line " ++ Decimal.ofInt d.line else [])

/-- `pattern` stands for `d`: a pattern without a message stands for its whole class. -/
def isA (d pattern : Diagnostic) : Bool := pattern.cause.message == [] && pattern.kind == d.kind

/-- `d` with `line` filled in, if `line` is one and `d` has none yet. -/
def withLine (d : Diagnostic) (line : Int) : Diagnostic :=
  if line ≤ 0 ∨ 0 < d.line then d else { d with line }

/-- The input ended where a rule wanted more, so more input may mend it. -/
def isIncomplete (d : Diagnostic) : Bool := d.kind == .syntaxError && d.cause.atEnd

end Diagnostic

/-- What a pass hands on when it does not succeed. -/
inductive Failure where
  | diagnostic (d : Diagnostic)
  /-- A failure of the world outside, or of a store that holds the program's variables. -/
  | plain (message : Text)
  /-- A configuration that breaks the listed rules. -/
  | invalid (issues : List Text)
  /-- A failure under a label, with the text that it had when the label was put on. -/
  | labelled (shown : Text) (inner : Failure)
  /-- A bound on rounds was reached: the computation was cut short and has no answer. -/
  | unfinished
deriving DecidableEq, Repr

namespace Failure

/-- A diagnostic with its cause and line. -/
def atLine (cause : Cause) (line : Int) : Failure := .diagnostic ⟨cause, line⟩

/-- The whole text of a failure. -/
def message : Failure → Text
  | diagnostic d => d.message
  | plain message => message
  | invalid [] => text "config: invalid configuration"
  | invalid issues => text "config validation failed:" ++ issues.flatMap (text "\n- " ++ ·)
  | labelled shown _ => shown
  | unfinished => text "unfinished"

def label (name : Text) (f : Failure) : Failure := .labelled (name ++ text ": " ++ f.message) f

def diagnostic? : Failure → Option Diagnostic
  | diagnostic d => some d
  | labelled _ inner => inner.diagnostic?
  | _ => none

/-- The class of the diagnostic inside. -/
def kind (f : Failure) : DiagnosticKind :=
  match f.diagnostic? with
  | some d => d.kind
  | none => .unclassified

def isA (f : Failure) (pattern : Diagnostic) : Bool :=
  match f.diagnostic? with
  | some d => d.isA pattern
  | none => false

def withLine (line : Int) : Failure → Failure
  | diagnostic d => .diagnostic (d.withLine line)
  | labelled shown inner => .labelled shown (inner.withLine line)
  | other => other

/-- The input ended too early, so more input may mend it. -/
def isIncomplete (f : Failure) : Bool :=
  match f.diagnostic? with
  | some d => d.isIncomplete
  | none => false

end Failure

end StoneLang
