import Offside.Scope.Basic

/-!
# Scope/Tree — all scopes of a program

Scopes are numbered as they are made, the first one being 0.  Every other scope is inside an earlier
one, so the way from a scope outwards (`path`) ends.
-/

namespace Offside.Scope

/-- Scopes by number, each with the number of the scope around it. -/
structure Tree where
  nodes : List (Scope × Option Nat)
deriving Repr

namespace Tree

/-- One global scope. -/
def root : Tree := ⟨[(.empty .global, none)]⟩

/-- The scope of this number. -/
def scope? (tree : Tree) (id : Nat) : Option Scope := tree.nodes[id]?.map (·.1)

/-- The number of the scope around this one. -/
def parent? (tree : Tree) (id : Nat) : Option Nat := tree.nodes[id]?.bind (·.2)

/-- The numbers from a scope outwards, at most `n` of them. -/
def pathTo (tree : Tree) : Nat → Nat → List Nat
  | 0, _ => []
  | n + 1, id => id :: (tree.parent? id).elim [] (tree.pathTo n)

/-- The numbers of a scope and the scopes around it, from the inside out. -/
def path (tree : Tree) (id : Nat) : List Nat := tree.pathTo tree.nodes.length id

/-- A scope and the scopes around it, from the inside out. -/
def scopes (tree : Tree) (id : Nat) : List Scope := (tree.path id).filterMap tree.scope?

/-- A new scope inside another one, and its number. -/
def child (tree : Tree) (parent : Nat) (kind : Kind) : Tree × Nat :=
  (⟨tree.nodes ++ [(.empty kind, some parent)]⟩, tree.nodes.length)

/-- Changes one scope. -/
def update (tree : Tree) (id : Nat) (f : Scope → Scope) : Tree :=
  ⟨tree.nodes.modify id fun (scope, parent) => (f scope, parent)⟩

/-- Binds a name in a scope, in place of what it was bound to. -/
def define (tree : Tree) (id : Nat) (name : String) (binding : Binding) : Tree :=
  tree.update id (·.define name binding)

/-- Whether a scope itself declares a name. -/
def declares (tree : Tree) (id : Nat) (name : String) : Bool :=
  (tree.scope? id).any (·.declares name)

/-- Binds a name in a scope that does not declare it; tells whether it did. -/
def declare (tree : Tree) (id : Nat) (name : String) (binding : Binding) : Tree × Bool :=
  if tree.declares id name then (tree, false) else (tree.define id name binding, true)

/-- What a name is bound to, seen from a scope. -/
def lookup? (tree : Tree) (id : Nat) (name : String) : Option Binding :=
  Offside.lookup? (tree.scopes id) name

/-- The number of the innermost function that a scope is in. -/
def function? (tree : Tree) (id : Nat) : Option Nat :=
  (tree.path id).find? fun id => (tree.scope? id).any (·.kind = .function)

/-- The type of the answers recorded for a scope. -/
def answer? (tree : Tree) (id : Nat) : Option Ty := (tree.scope? id).bind (·.answer)

/-- Records the type of the answers of a scope. -/
def setAnswer (tree : Tree) (id : Nat) (type : Ty) : Tree := tree.update id (·.setAnswer type)

end Tree

end Offside.Scope
