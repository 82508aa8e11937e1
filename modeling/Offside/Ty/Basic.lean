/-!
# Ty/Basic — types, and when they agree

A function type is a chain of links, one for each parameter; the last link of a chain is marked
(`terminal`), so that a function of two parameters differs from one that answers a function.

Types agree in three ways.  `equal` is identity up to the order of record fields; `compatible` takes
a variable for any type; `accepts` also lets an optional type take what it is an option of.
-/

namespace Offside

/-- A type. -/
inductive Ty where
  | number | text | boolean | nil
  /-- A type that is not known yet. -/
  | var (id : Nat)
  | list (element : Ty)
  /-- A type with an option of being nil. -/
  | maybe (inner : Ty)
  | record (fields : List (String × Ty))
  | custom (name : String) (arguments : List Ty)
  /-- One parameter of a function, and what it goes on to. -/
  | link (input output : Ty) (terminal : Bool)
deriving Repr, Inhabited

namespace Ty

/-- Whether a type is a variable. -/
def isVar : Ty → Bool
  | var _ => true
  | _ => false

/-- Whether a type is nil. -/
def isNil : Ty → Bool
  | nil => true
  | _ => false

/-- Whether a type is optional. -/
def isMaybe : Ty → Bool
  | maybe _ => true
  | _ => false

/-! ## Functions -/

/-- The chain of a function of these parameters. -/
def links : List Ty → Ty → Ty
  | [], result => result
  | [input], result => link input result true
  | input :: later, result => link input (links later result) false

/-- The type of a function; one without parameters takes nil. -/
def function (parameters : List Ty) (result : Ty) : Ty :=
  links (if parameters.isEmpty then [nil] else parameters) result

/-- The parameters and the result of a type taken as the rest of a chain. -/
def unlink : Ty → List Ty × Ty
  | link input output true => ([input], output)
  | link input output false =>
    let (later, result) := output.unlink
    (input :: later, result)
  | other => ([], other)

/-- The parameters and the result of a function type. -/
def signature? : Ty → Option (List Ty × Ty)
  | link input output terminal => some (link input output terminal).unlink
  | _ => none

/-! ## Agreement -/

mutual

/-- The same type, up to the order of record fields. -/
def equal : Ty → Ty → Bool
  | number, number | text, text | boolean, boolean | nil, nil => true
  | var a, var b => a == b
  | list a, list b => a.equal b
  | maybe a, maybe b => a.equal b
  | record a, record b => a.length == b.length && equalFields a b
  | custom a as, custom b bs => a == b && equalAll as bs
  | link a r t, link b q u => t == u && a.equal b && r.equal q
  | _, _ => false

/-- Every field is there under its name, with the same type. -/
def equalFields : List (String × Ty) → List (String × Ty) → Bool
  | [], _ => true
  | (key, type) :: later, others =>
    (match others.lookup key with
      | some other => type.equal other
      | none => false) && equalFields later others

/-- The same types in the same order. -/
def equalAll : List Ty → List Ty → Bool
  | [], [] => true
  | a :: as, b :: bs => a.equal b && equalAll as bs
  | _, _ => false

end

instance : BEq Ty := ⟨equal⟩

mutual

/-- Types that agree, a variable with any type. -/
def compatible : Ty → Ty → Bool
  | var _, _ => true
  | _, var _ => true
  | number, number | text, text | boolean, boolean | nil, nil => true
  | list a, list b => a.compatible b
  | maybe a, maybe b => a.compatible b
  | record a, record b => a.length == b.length && compatibleFields a b
  | custom a as, custom b bs => a == b && compatibleAll as bs
  | link a r t, link b q u => t == u && a.compatible b && r.compatible q
  | _, _ => false

/-- Every field is there under its name, with a type that agrees. -/
def compatibleFields : List (String × Ty) → List (String × Ty) → Bool
  | [], _ => true
  | (key, type) :: later, others =>
    (match others.lookup key with
      | some other => type.compatible other
      | none => false) && compatibleFields later others

/-- As many types, and they agree in order. -/
def compatibleAll : List Ty → List Ty → Bool
  | [], [] => true
  | a :: as, b :: bs => a.compatible b && compatibleAll as bs
  | _, _ => false

end

/-- Whether something declared with the first type may hold the second: an optional type also takes
nil, and what it is an option of. -/
def accepts : Ty → Ty → Bool
  | maybe inner, actual =>
    (maybe inner).compatible actual || (actual.isNil || inner.accepts actual)
  | type, actual => type.compatible actual

/-! ## Variables -/

mutual

/-- The type with `f` in place of its variables. -/
def mapVars (f : Nat → Ty) : Ty → Ty
  | number => number
  | text => text
  | boolean => boolean
  | nil => nil
  | var id => f id
  | list element => list (element.mapVars f)
  | maybe inner => maybe (inner.mapVars f)
  | record fields => record (mapVarsFields f fields)
  | custom name arguments => custom name (mapVarsAll f arguments)
  | link input output terminal => link (input.mapVars f) (output.mapVars f) terminal

/-- The fields with `f` in place of their variables. -/
def mapVarsFields (f : Nat → Ty) : List (String × Ty) → List (String × Ty)
  | [] => []
  | (key, type) :: later => (key, type.mapVars f) :: mapVarsFields f later

/-- The types with `f` in place of their variables. -/
def mapVarsAll (f : Nat → Ty) : List Ty → List Ty
  | [] => []
  | type :: later => type.mapVars f :: mapVarsAll f later

end

mutual

/-- The variables of a type, in order, as often as they occur. -/
def vars : Ty → List Nat
  | number | text | boolean | nil => []
  | var id => [id]
  | list element => element.vars
  | maybe inner => inner.vars
  | record fields => varsFields fields
  | custom _ arguments => varsAll arguments
  | link input output _ => input.vars ++ output.vars

/-- The variables of fields. -/
def varsFields : List (String × Ty) → List Nat
  | [] => []
  | (_, type) :: later => type.vars ++ varsFields later

/-- The variables of types. -/
def varsAll : List Ty → List Nat
  | [] => []
  | type :: later => type.vars ++ varsAll later

end

/-! ## Induction -/

/-- **Induction over types**, with what is inside a record or a custom type at once. -/
@[elab_as_elim] theorem induct {motive : Ty → Prop} (number : motive .number)
    (text : motive .text) (boolean : motive .boolean) (nil : motive .nil)
    (var : ∀ id, motive (.var id)) (list : ∀ element, motive element → motive (.list element))
    (maybe : ∀ inner, motive inner → motive (.maybe inner))
    (record : ∀ fields, (∀ p ∈ fields, motive p.2) → motive (.record fields))
    (custom : ∀ name arguments, (∀ t ∈ arguments, motive t) → motive (.custom name arguments))
    (link : ∀ input output terminal, motive input → motive output →
      motive (.link input output terminal)) (type : Ty) : motive type := by
  refine @Ty.rec motive (fun fields => ∀ p ∈ fields, motive p.2)
    (fun types => ∀ t ∈ types, motive t) (fun p => motive p.2) number text boolean nil
    var list maybe record custom link ?_ ?_ ?_ ?_ ?_ type
  · exact fun _ h => absurd h List.not_mem_nil
  · exact fun _ _ h hs => List.forall_mem_cons.mpr ⟨h, hs⟩
  · exact fun _ h => absurd h List.not_mem_nil
  · exact fun _ _ h hs => List.forall_mem_cons.mpr ⟨h, hs⟩
  · exact fun _ _ h => h

end Ty

end Offside
