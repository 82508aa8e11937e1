/-!
# Position — places in a source text

Lines count from one and columns from zero; both count characters.
-/

namespace Offside

/-- A place in a source text: a line, and a column within it. -/
structure Position where
  line : Nat
  column : Nat
deriving DecidableEq, Repr

namespace Position

/-- Where a source text begins. -/
def start : Position := ⟨1, 0⟩

/-- The place one character further: a line feed begins the next line. -/
def next (p : Position) (c : Char) : Position :=
  if c = '\n' then ⟨p.line + 1, 0⟩ else ⟨p.line, p.column + 1⟩

/-- The place behind `text`. -/
def after (p : Position) (text : List Char) : Position := text.foldl next p

/-- The place `n` columns further on the same line. -/
def right (p : Position) (n : Nat) : Position := ⟨p.line, p.column + n⟩

@[simp] theorem after_nil (p : Position) : p.after [] = p := rfl

@[simp] theorem after_cons (p : Position) (c : Char) (text : List Char) :
    p.after (c :: text) = (p.next c).after text := rfl

@[simp] theorem after_append (p : Position) (a b : List Char) :
    p.after (a ++ b) = (p.after a).after b :=
  List.foldl_append

/-- Within a line the place moves by the length of the text. -/
theorem after_eq_right : ∀ (p : Position) (text : List Char), '\n' ∉ text →
    p.after text = p.right text.length
  | _, [], _ => rfl
  | p, c :: text, h => by
      have hc : c ≠ '\n' := fun e => h (e ▸ List.mem_cons_self)
      rw [after_cons, after_eq_right _ text fun m => h (List.mem_cons_of_mem _ m)]
      simp only [next, hc, if_false, right, List.length_cons]
      rw [Nat.add_right_comm, Nat.add_assoc]

end Position

end Offside
