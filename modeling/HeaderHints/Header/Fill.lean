import HeaderHints.TypeExpr.Collection

/-!
# Filling in a header

The tokens of a header are written back one by one. An argument without an annotation gets the
next inferred type; annotations and default values that are there are read as types and rendered
anew, or copied when they do not read as types; and the return type goes before the closing colon
unless the header has one.

Types are matched to arguments from the right: when there are fewer types than names, the names at
the front (`self`, `cls`) get none, and when there are more, the types at the front are not used.
A bare `*` or `/` takes a place in the argument list and no type.
-/

namespace HeaderHints.Header

/-! ### Writing tokens -/

/-- Write the arrow of a return type, with a space before it where there is none. -/
def writeArrow (out : Text) : Text :=
  out ++ (if Text.endsBlank out then "-> ".toList else " -> ".toList)

/-- Write a token as it reads in source. Blanks at the start of layout replace the space that was
written after the token before it. -/
def write (out : Text) (t : Token) : Text :=
  let replacesSpace := t.isLayout && t.text.head?.any (fun c => c = ' ' || c = '\t') &&
    out.getLast? = some ' '
  let out := if replacesSpace then out.dropLast else out
  match t.kind with
  | .separator => if t.text = ['|'] then out ++ " | ".toList else out ++ t.text ++ [' ']
  | .keyword | .definition => out ++ t.text ++ [' ']
  | .typeDef | .colon => out ++ ": ".toList
  | .defaultDef => out ++ " = ".toList
  | .returnTypeDef => writeArrow out
  | .lambdaBody => if t.text.head? = some ':' then out ++ t.text else out ++ [' '] ++ t.text
  | _ => out ++ t.text

/-! ### The argument list -/

/-- A bare `*` or `/`. -/
def isBareMark (t : Token) : Bool :=
  t.kind = .endSeparator && (t.text = ['*'] || t.text = ['/'])

/-- Whether a token ends an annotation or a default value. -/
def endsItem (t : Token) : Bool :=
  match t.kind with
  | .defaultDef | .endDefinition | .stop => true
  | .separator => t.text = [',']
  | .endSeparator => t.text = [','] || t.isCloser || t.isLayout
  | _ => false

/-- A place in an argument list. -/
inductive Place where
  /-- A named argument. -/
  | name
  /-- A bare `*` or `/`. -/
  | marker
deriving DecidableEq

/-- The places of an argument list, up to its closing bracket. -/
def places : Nat → List Token → Except Fault (List Place)
  | _, [] => .ok []
  | depth, t :: ts =>
    if t.kind = .stop then
      .error .argumentsCutShort
    else if t.isOpener then
      places (depth + 1) ts
    else if t.isCloser then
      if depth = 0 then .ok [] else places (depth - 1) ts
    else if depth = 0 && t.kind = .argumentName then
      return .name :: (← places depth ts)
    else if depth = 0 && isBareMark t then
      return .marker :: (← places depth ts)
    else
      places depth ts

/-- Whether each place goes without a type, when the first `untyped` names do. -/
def skipped : Nat → List Place → List Bool
  | _, [] => []
  | untyped, .marker :: ps => true :: skipped untyped ps
  | 0, .name :: ps => false :: skipped 0 ps
  | untyped + 1, .name :: ps => true :: skipped untyped ps

/-! ### Filling in -/

/-- What is filled into a header. -/
structure Types where
  /-- Tokens of the inferred types of the arguments. -/
  args : List (List Token)
  /-- Tokens of the inferred return type. -/
  result : List Token
  /-- Modules that are left out in front of names. -/
  modules : Modules

/-- A header that is being filled in. -/
structure Filling where
  /-- The tokens to come. -/
  rest : List Token
  /-- What has been written. -/
  out : Text
  /-- The number of the next inferred type. -/
  nextType : Nat := 0

namespace Filling

/-- The text of an inferred type. -/
def inferred (modules : Modules) (tokens : List Token) : Except Fault Text :=
  (TypeExpr.render modules) <$> (TypeExpr.readWhole.run.run tokens).1

/-- Copy everything up to and including the bracket that opens the argument list. -/
def copyOpening (seenDef : Bool) (out : Text) : List Token → Except Fault Filling
  | [] => .error .ranOut
  | t :: ts =>
    if t.kind = .stop then
      .error .noArgumentList
    else if t.kind = .definition then
      copyOpening true (write out t) ts
    else if seenDef && t.isOpener && t.text = ['('] then
      .ok { rest := ts, out := write out t }
    else
      copyOpening seenDef (write out t) ts

/-- Copy tokens to the end of an item, which is outside brackets. The colon of a slice is written
without a space. -/
def copy (openers : List Text) (out : Text) : List Token → Except Fault (List Token × Text)
  | [] => .error .ranOut
  | t :: ts =>
    if openers.isEmpty && endsItem t then
      .ok (t :: ts, out)
    else if t.kind = .stop then
      .error .unbalanced
    else
      let openers :=
        if t.isOpener then t.text :: openers else if t.isCloser then openers.tail else openers
      let out :=
        if t.kind = .colon && openers.head? = some ['['] then out ++ [':'] else write out t
      copy openers out ts

/-- Write what a reader makes of the next tokens if it stops where the item ends, and copy them
otherwise. -/
def renderOrCopy (reader : Reader Text) (f : Filling) : Except Fault Filling :=
  let copied := do
    let (rest, out) ← copy [] f.out f.rest
    return { f with rest, out }
  match reader.run.run f.rest with
  | (.error _, _) => copied
  | (.ok _, []) => .error .ranOut
  | (.ok text, t :: ts) =>
    if endsItem t then .ok { f with rest := t :: ts, out := f.out ++ text } else copied

/-- Write an annotation that the header has. -/
def writeAnnotation (modules : Modules) (f : Filling) : Except Fault Filling :=
  f.renderOrCopy (TypeExpr.render modules <$> TypeExpr.read)

/-- Write a default value. Its names keep their modules. -/
def writeDefault (f : Filling) : Except Fault Filling :=
  match f.rest with
  | [] => .error .ranOut
  | t :: _ =>
    if t.isOpener then f.renderOrCopy (Collection.render [] <$> Collection.read)
    else f.renderOrCopy (TypeExpr.render [] <$> TypeExpr.read)

/-- Write the annotation of an argument, or its inferred type unless the argument is skipped. -/
def fillType (types : Types) (name : Text) (skip : Bool) (f : Filling) : Except Fault Filling :=
  match f.rest with
  | [] => .error .ranOut
  | t :: ts =>
    if t.kind = .typeDef then do
      let f ← writeAnnotation types.modules { f with rest := ts, out := f.out ++ ": ".toList }
      return if skip then f else { f with nextType := f.nextType + 1 }
    else if skip then
      .ok f
    else
      match types.args[f.nextType]? with
      | none => .error (.noTypeLeft name)
      | some tokens => do
        let text ← inferred types.modules tokens
        return { f with out := f.out ++ ": ".toList ++ text, nextType := f.nextType + 1 }

/-- Write the default value of an argument, if it has one. -/
def fillDefault (f : Filling) : Except Fault Filling :=
  match f.rest with
  | [] => .error .ranOut
  | t :: ts =>
    if t.kind = .defaultDef then writeDefault { f with rest := ts, out := f.out ++ " = ".toList }
    else .ok f

/-- Write an argument. -/
def fillArgument (types : Types) (name : Text) (skip : Bool) (f : Filling) :
    Except Fault Filling := do
  fillDefault (← fillType types name skip { f with out := f.out ++ name })

/-- Write the argument list through its closing bracket. -/
def fillArguments (types : Types) : Nat → List Bool → Filling → Except Fault Filling
  | 0, _, _ => .error .ranOut
  | n + 1, skips, f =>
    match f.rest with
    | [] => .error .ranOut
    | t :: ts =>
      if t.kind = .stop then
        .error .unclosedArguments
      else if t.kind = .argumentName then do
        let f ← fillArgument types t.text (skips.headD false) { f with rest := ts }
        fillArguments types n skips.tail f
      else
        let f := { f with rest := ts, out := write f.out t }
        if t.isCloser then .ok f
        else fillArguments types n (if isBareMark t then skips.tail else skips) f

/-- Copy the tokens that are left. -/
def copyRest (out : Text) : List Token → Except Fault Text
  | [] => .error .ranOut
  | t :: ts => if t.kind = .stop then .ok out else copyRest (write out t) ts

/-- Write the return annotation, the closing colon and what follows. -/
def finish (types : Types) (out : Text) : List Token → Except Fault Text
  | [] => .error .ranOut
  | t :: ts =>
    if t.kind = .endDefinition then do
      let text ← inferred types.modules types.result
      copyRest (write (writeArrow out ++ text) t) ts
    else if t.kind = .returnTypeDef then do
      let f ← writeAnnotation types.modules { rest := ts, out := writeArrow out }
      copyRest f.out f.rest
    else if t.isLayout then
      finish types (write out t) ts
    else
      .error (.expectedKind [.returnTypeDef, .endDefinition] t)

end Filling

/-- The text of a header with types filled in. -/
def fill (types : Types) (tokens : List Token) : Except Fault Text := do
  let f ← Filling.copyOpening false [] tokens
  let ps ← places 0 f.rest
  let names := ps.count .name
  let given := types.args.length
  let f ← Filling.fillArguments types (f.rest.length + 1) (skipped (names - given) ps)
    { f with nextType := given - names }
  Filling.finish types f.out f.rest

end HeaderHints.Header
