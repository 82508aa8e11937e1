import Offside.Ty.Subst

/-!
# Ty/Fit — whether an argument fits a parameter

Within one call, a variable of the parameter types is bound at its first use, and later uses have to
agree with what it was bound to; where that is a variable itself, the binding is replaced.  An
optional parameter also takes nil and what it is an option of.

The bindings may run in a circle through optional types alone: a variable bound to an option of
itself never comes to a shape that the argument could be compared with.  Such a comparison has no
end, and `Fit.endless` says so.
-/

namespace Offside

/-- The outcome of comparing an argument with a parameter, with the bindings made on the way. -/
inductive Fit where
  | fits (s : Subst)
  | clashes (s : Subst)
  /-- With these bindings, the type leads back to itself. -/
  | endless (type : Ty) (s : Subst)
deriving Repr

namespace Fit

/-- Goes on to a second comparison if the first one fits. -/
def andThen (first : Fit) (second : Subst → Fit) : Fit :=
  match first with
  | fits s => second s
  | clashes s => clashes s
  | endless type s => endless type s

/-- Fits if `agree` holds, and binds nothing. -/
def when (agree : Bool) (s : Subst) : Fit := if agree then fits s else clashes s

end Fit

namespace Subst

/-- What a parameter type comes to once its bindings are followed. -/
inductive Exposed where
  /-- A variable that takes what it is compared with. -/
  | free (id : Nat)
  /-- A type that is not a variable. -/
  | shape (type : Ty)
  | endless
deriving Repr

/-- The type without the options around it. -/
def stripMaybe : Ty → Ty
  | .maybe inner => stripMaybe inner
  | type => type

/-- The type itself, or what it is an option of if options are gone `through`. -/
def seen (through : Bool) (type : Ty) : Ty := if through then stripMaybe type else type

/-- Follows bindings to the first free variable or shape, at most `lookups` times; options are
followed too if `through` is set.  A bound variable that is met twice is met for ever, so more
look-ups than there are bindings have no end. -/
def expose (s : Subst) (through : Bool) : Nat → Ty → Exposed
  | lookups, type =>
    match seen through type with
    | .var id =>
      match s.get? id with
      | none => .free id
      | some (.var _) => .free id
      | some bound =>
        match lookups with
        | 0 => .endless
        | lookups + 1 => s.expose through lookups bound
    | type => .shape type

/-- Compares `actual` with a parameter type: a free variable is bound to it, and otherwise
`compare` decides on the shape.  Where `actual` is no option itself, an optional parameter is taken
for what it is an option of. -/
def against (s : Subst) (actual expected : Ty) (through : Bool) (compare : Ty → Fit) : Fit :=
  match s.expose through s.size expected with
  | .free id => .fits (s.insert id actual)
  | .shape type => compare type
  | .endless => .endless expected s

end Subst

namespace Ty

/-- The comparison of an argument, once it is known, with a parameter type. -/
abbrev Comparison := Ty → Subst → Fit

/-- Compares in order, as long as everything fits. -/
def fitEach : List (Subst → Fit) → Subst → Fit
  | [], s => .fits s
  | first :: later, s => (first s).andThen (fitEach later)

/-- Compares the fields of a record with those expected, each by its name. -/
def fitFields (actual : List (String × Comparison)) (expected : List (String × Ty)) :
    Subst → Fit :=
  fitEach <| expected.map fun (key, type) =>
    match actual.lookup key with
    | some compare => compare type
    | none => .clashes

/-- Compares types in order. -/
def fitAll (actual : List Comparison) (expected : List Ty) : Subst → Fit :=
  fitEach <| List.zipWith (fun compare type => compare type) actual expected

mutual

/-- Whether an argument of the first type fits a parameter of the second. -/
def fit : Ty → Comparison
  | var id, expected, s => s.against (var id) expected false fun _ => .fits s
  | nil, expected, s =>
    s.against nil expected false fun type => .when (type.isNil || type.isMaybe) s
  | maybe inner, expected, s =>
    s.against (maybe inner) expected false fun
      | maybe type => inner.fit type s
      | _ => .clashes s
  | number, expected, s =>
    s.against number expected true fun
      | number => .fits s
      | _ => .clashes s
  | text, expected, s =>
    s.against text expected true fun
      | text => .fits s
      | _ => .clashes s
  | boolean, expected, s =>
    s.against boolean expected true fun
      | boolean => .fits s
      | _ => .clashes s
  | list element, expected, s =>
    s.against (list element) expected true fun
      | list type => element.fit type s
      | _ => .clashes s
  | record fields, expected, s =>
    s.against (record fields) expected true fun
      | record types =>
        if fields.length == types.length then fitFields (comparisonsOfFields fields) types s
        else .clashes s
      | _ => .clashes s
  | custom name arguments, expected, s =>
    s.against (custom name arguments) expected true fun
      | custom other types =>
        if name == other && arguments.length == types.length then
          fitAll (comparisons arguments) types s
        else .clashes s
      | _ => .clashes s
  | link input output terminal, expected, s =>
    s.against (link input output terminal) expected true fun
      | link input' output' terminal' =>
        if terminal == terminal' then
          (input.fit input' s).andThen fun s => output.fit output' s
        else .clashes s
      | _ => .clashes s

/-- The comparisons of the fields of a record. -/
def comparisonsOfFields : List (String × Ty) → List (String × Comparison)
  | [] => []
  | (key, type) :: later => (key, type.fit) :: comparisonsOfFields later

/-- The comparisons of types. -/
def comparisons : List Ty → List Comparison
  | [] => []
  | type :: later => type.fit :: comparisons later

end

end Ty

end Offside
