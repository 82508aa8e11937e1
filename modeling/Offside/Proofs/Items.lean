import Offside.Proofs.Enclosure
import Offside.Proofs.Recovery
import Offside.Proofs.Trailing

/-!
# Proofs/Items — the items of a literal

An item is read by itself (`alone?`) or among others, between commas or on lines of its own
(`Joined`).  What divides two items is seen behind the first as soon as what follows cannot go on
with it (`Divides`); then all are read one by one, each as by itself (`rounds_of_joined`).
-/

namespace Offside

open List hiding iterate
open Offside.Parser Cursor Nested

/-! ## Sights of tokens -/

/-- Soft line breaks, or nothing. -/
def Soft (tokens : List Token) : Prop := ∀ t ∈ tokens, t.kind = .softNewline

/-- The kind of the first token that is no soft line break. -/
def firstKind? (tokens : List Token) : Option Token.Kind :=
  (tokens.find? (·.kind ≠ .softNewline)).map (·.kind)

/-- Tokens are seen alike in front of others. -/
theorem exists_sights_append : ∀ (tokens after : List Token) (b : Bool),
    ∃ b', sights b (tokens ++ after) = sights b tokens ++ sights b' after
  | [], _, b => ⟨b, rfl⟩
  | t :: tokens, after, b => by
    rw [cons_append, sights, sights]
    split
    · exact exists_sights_append tokens after true
    · obtain ⟨b', h⟩ := exists_sights_append tokens after false
      exact ⟨b', by rw [h, cons_append]⟩

theorem sights_soft : ∀ {tokens}, Soft tokens → ∀ (after : List Token) (b : Bool),
    sights b (tokens ++ after) = sights (b || !tokens.isEmpty) after
  | [], _, after, b => by rw [nil_append, isEmpty_nil, Bool.not_true, Bool.or_false]
  | t :: tokens, h, after, b => by
    obtain ⟨ht, hlater⟩ := forall_mem_cons.mp h
    rw [cons_append, sights, if_pos ht, sights_soft hlater, Bool.true_or, isEmpty_cons,
      Bool.not_false, Bool.or_true]

theorem sights_cons {t} (h : t.kind ≠ .softNewline) (after : List Token) (b : Bool) :
    sights b (t :: after) = ⟨t, b⟩ :: sights false after := by rw [sights, if_neg h]

variable {tokens : List Token}

theorem firstKind?_append {kind} (h : firstKind? tokens = some kind) (after : List Token) :
    firstKind? (tokens ++ after) = some kind := by
  obtain ⟨t, ht, hkind⟩ := Option.map_eq_some_iff.mp h
  rw [firstKind?, find?_append, ht, Option.some_or, Option.map_some, hkind]

theorem next_sights {kind} : ∀ {tokens}, firstKind? tokens = some kind →
    ∀ (after : List Token) (b : Bool), next (sights b (tokens ++ after)) = kind
  | [], h, _, _ => by cases h
  | t :: tokens, h, after, b => by
    by_cases ht : t.kind = .softNewline
    · rw [firstKind?, find?_cons_of_neg (by simpa using ht)] at h
      rw [cons_append, sights, if_pos ht]
      exact next_sights h after true
    · rw [firstKind?, find?_cons_of_pos (by simpa using ht)] at h
      rw [cons_append, sights_cons ht]
      exact Option.some.inj h

namespace Parser

variable {α γ : Type}

/-- What stands before the first token does not matter to what is blurred. -/
theorem blurred_sights (b : Bool) (tokens : List Token) (v : List Sight) :
    blurred false (sights b tokens ++ v) = blurred false (sights false tokens ++ v) := by
  cases tokens with
  | nil => rfl
  | cons t later =>
    by_cases ht : t.kind = .softNewline
    · rw [sights, sights, if_pos ht, if_pos ht]
    · rw [sights_cons ht, sights_cons ht]
      rfl

/-! ## What is seen from a state -/

/-- From the state `v` is seen, up to places, and `k` reports were made. -/
structure Seen (v : List Sight) (k : Nat) (s : State) : Prop where
  settled : s.cursor.Settled
  ahead : s.cursor.ahead.map Sight.bare = v.map Sight.bare
  reports : s.reports.length = k

namespace Seen

variable {sight : Sight} {v : List Sight} {k : Nat} {s : State}

/-- The first token seen is the current one. -/
theorem cons (h : Seen (sight :: v) k s) : s.cursor.rest ≠ [] ∧
    s.cursor.current.bare = sight.token.bare ∧ s.cursor.afterSoftBreak = sight.broken ∧
      Seen v k ⟨s.cursor.advance, s.reports⟩ := by
  have hahead := h.ahead
  have hrest : s.cursor.rest ≠ [] := by
    intro hnil
    rw [ahead_eq_nil hnil] at hahead
    cases hahead
  rw [h.settled.ahead_eq hrest, map_cons, map_cons] at hahead
  obtain ⟨hhead, htail⟩ := cons.inj hahead
  exact ⟨hrest, congrArg Sight.token hhead, congrArg Sight.broken hhead, h.settled.advance, htail,
    h.reports⟩

theorem rest_eq_nil (h : Seen [] k s) : s.cursor.rest = [] := by
  by_contra hrest
  have hahead := h.ahead
  rw [h.settled.ahead_eq hrest] at hahead
  cases hahead

theorem kind (h : Seen v k s) : s.cursor.kind = next v := by
  cases v with
  | nil => exact h.settled.rest_eq_nil_iff.mp h.rest_eq_nil
  | cons sight later => exact Token.kind_of_bare_eq h.cons.2.1

/-- Behind a token that is taken. -/
theorem take (h : Seen (sight :: v) k s) :
    ∃ token t, take s = .ok token t ∧ token.bare = sight.token.bare ∧ Seen v k t :=
  ⟨_, _, rfl, h.cons.2.1, h.cons.2.2.2⟩

theorem alike {b o} (h : Seen (sights b tokens ++ v) k s) (hflat : o.cursor.Flat)
    (hahead : o.cursor.ahead = sights false tokens) (hreports : o.reports = []) :
    Alike false v k o s := by
  refine ⟨hflat, h.settled, ?_, by rw [h.reports, hreports, length_nil, Nat.zero_add]⟩
  rw [blurred_of_map_eq h.ahead, blurred_sights, hahead]

theorem of_alike {o} (h : Alike true v k o s) (hrest : o.cursor.rest = [])
    (hreports : o.reports = []) : Seen v k s := by
  refine ⟨h.right, ?_, by rw [h.reports, hreports, length_nil, Nat.zero_add]⟩
  have hahead := h.ahead
  rwa [ahead_eq_nil hrest, nil_append, blurred_true, blurred_true] at hahead

end Seen

/-! ## Items by themselves -/

/-- A depth that is enough for tokens by themselves. -/
def depthOf (tokens : List Token) : Nat := 2 * (start tokens).weight + 2

/-- What tokens are read as by themselves, to their end and without a report. -/
def alone? (p : Nat → Parser α) (tokens : List Token) : Option α :=
  match p (depthOf tokens) ⟨start tokens, []⟩ with
  | .ok a s => if s.cursor.rest.isEmpty && s.reports.isEmpty then some a else none
  | .error _ _ => none

theorem exists_of_alone? {p : Nat → Parser α} {a : α}
    (h : alone? p tokens = some a) : ∃ t, p (depthOf tokens) ⟨start tokens, []⟩ = .ok a t ∧
      t.cursor.rest = [] ∧ t.reports = [] := by
  unfold alone? at h
  split at h
  · next a' t hok =>
    obtain ⟨hend, hsame⟩ := Option.ite_none_right_eq_some.mp h
    cases hsame
    rw [Bool.and_eq_true, List.isEmpty_iff, List.isEmpty_iff] at hend
    exact ⟨t, hok, hend⟩
  · cases h

/-- Among others and in front of what cannot go on with them, tokens are read as `a`, up to `view`;
what is reported may depend on what was read before. -/
def ReadsAs (view : α → γ) (cost : List γ → γ → Nat) (item : List α → Parser α)
    (tokens : List Token) (a : γ) : Prop :=
  ∀ earlier b v k s, next v ∉ trailing → Seen (sights b tokens ++ v) k s →
    (∃ u, item earlier s = .error .endless u) ∨
    ∃ a' t, item earlier s = .ok a' t ∧ view a' = a ∧ Seen v (k + cost (earlier.map view) a) t

end Parser

/-- The expression that tokens are by themselves. -/
def Expr.ofTokens? : List Token → Option Expr := alone? fun depth => (nested depth).expression

/-- The field of a record that tokens are by themselves. -/
def Field.ofTokens? : List Token → Option Field := alone? fun depth => (nested depth).field []

/-! ## What an expression begins with -/

namespace Nested

variable {n : Nested} {e : Expr} {s t : State}

/-- The kinds of the tokens that an expression begins with. -/
def startKinds : List Token.Kind := primaryKinds ++ [.minus, .bang, .fn]

theorem kind_of_primary (hok : n.primary s = .ok e t) : s.cursor.kind ∈ startKinds := by
  by_contra hkind
  have hrefuse : ∃ fault, n.primary s = refuse fault s := by
    rw [primary, kind_bind]
    refine Exists.imp (fun _ h => congrFun h s) ?_
    split
    case h_10 | h_11 => exact ⟨_, rfl⟩
    all_goals next hk => exact absurd (hk ▸ by decide) hkind
  obtain ⟨fault, hfault⟩ := hrefuse
  rw [hfault] at hok
  cases hok

theorem operators_of_none {operators} (h : unaryOp? s.cursor.kind = none) :
    iterate operatorRound operators s = .ok operators s := by
  have hround : operatorRound operators s = .ok none s := by
    rw [operatorRound, kind_bind, h]
    rfl
  rw [iterate, bind_of_ok hround]
  rfl

theorem kind_of_unary (hok : n.unary s = .ok e t) : s.cursor.kind ∈ startKinds := by
  cases hop : unaryOp? s.cursor.kind with
  | some op => rcases unaryOp?_cases hop with hk | hk <;> rw [hk] <;> decide
  | none =>
    rw [unary_eq, bind_of_ok (operators_of_none hop)] at hok
    obtain ⟨_, _, hchain, -⟩ := exists_of_bind_eq_ok hok
    obtain ⟨_, _, hprimary, -⟩ := exists_of_bind_eq_ok hchain
    exact kind_of_primary hprimary

theorem kind_of_binary :
    ∀ {rungs e t}, binary n.unary rungs s = .ok e t → s.cursor.kind ∈ startKinds
  | [], _, _, hok => kind_of_unary hok
  | rung :: tighter, _, _, hok => by
    obtain ⟨_, _, hfirst, -⟩ := exists_of_bind_eq_ok (binary_cons _ rung tighter ▸ hok)
    exact kind_of_binary hfirst

theorem kind_of_expressionOf (hok : n.expressionOf s = .ok e t) : s.cursor.kind ∈ startKinds := by
  by_cases hfn : s.cursor.kind = .fn
  · rw [hfn]
    decide
  · rw [expressionOf, at?_of_kind_ne hfn] at hok
    obtain ⟨_, _, hcondition, -⟩ := exists_of_bind_eq_ok (ternaryOf_eq n ▸ hok)
    exact kind_of_binary hcondition

theorem kind_of_expression {depth} (hok : (nested depth).expression s = .ok e t) :
    s.cursor.kind ∈ startKinds := by
  cases depth with
  | zero => cases hok
  | succ depth => exact kind_of_expressionOf hok

end Nested

namespace Parser

variable {item : List Token} {v : List Sight} {k depth : Nat} {b : Bool} {s t : State} {e : Expr}

/-- Tokens inside brackets. -/
structure Inner (tokens : List Token) : Prop where
  eof : ∀ t ∈ tokens, t.kind ≠ .eof
  flat : ∀ t ∈ tokens, t.kind ∉ breakKinds

theorem ahead_start (h : ∀ t ∈ item, t.kind ≠ .eof) : (start item).ahead = sights false item := by
  have htakes : item.takeWhile (·.kind ≠ .eof) = item := by
    rw [takeWhile_eq_self_iff]
    simpa using h
  rw [start, htakes, ahead_skipSoft]
  rfl

theorem token_mem_of_mem_sights {sight} :
    ∀ {tokens b}, sight ∈ sights b tokens → sight.token ∈ tokens
  | [], _, h => by cases h
  | t :: tokens, b, h => by
    rw [sights] at h
    split at h
    · exact mem_cons_of_mem _ (token_mem_of_mem_sights h)
    · rcases mem_cons.mp h with rfl | h
      · exact mem_cons_self
      · exact mem_cons_of_mem _ (token_mem_of_mem_sights h)

theorem Inner.flat_start (h : Inner item) : (start item).Flat := by
  refine ⟨settled_start item, fun sight hsight => ?_⟩
  rw [ahead_start h.eof] at hsight
  exact h.flat _ (token_mem_of_mem_sights hsight)

theorem readsAs_expression (h : Expr.ofTokens? item = some e) (hinner : Inner item) :
    ReadsAs Expr.bare (fun _ _ => 0) (fun _ => (nested depth).expression) item e.bare := by
  obtain ⟨t, hok, hrest, hreports⟩ := exists_of_alone? h
  intro earlier b v k s hnext hseen
  have htails := (local_nested v k (depthOf item) depth).expression ⟨start item, []⟩ s
  rcases htails.same.alike (hseen.alike hinner.flat_start (ahead_start hinner.eof) rfl) e t hok
    (.inr hnext) with hendless | ⟨e', t', hok', hsame, hlike⟩
  · exact .inl hendless
  · exact .inr ⟨e', t', hok', hsame, .of_alike hlike hrest hreports⟩

/-- In front of what goes on with it, an expression becomes larger. -/
theorem lt_of_trailing {e'} (h : Expr.ofTokens? item = some e) (hinner : Inner item)
    (hnext : next v ∈ trailing) (hseen : Seen (sights b item ++ v) k s)
    (hok : (nested depth).expression s = .ok e' t) : sizeOf e.bare < sizeOf e'.bare := by
  obtain ⟨u, hown, hrest, -⟩ := exists_of_alone? h
  have htails := (local_nested v k (depthOf item) depth).expression ⟨start item, []⟩ s
  exact htails.grows (hseen.alike hinner.flat_start (ahead_start hinner.eof) rfl) e u hown hrest
    hnext e' t hok

/-- Whether a key was used before. -/
def repeats (earlier : List Field) (field : Field) : Nat :=
  if earlier.any (·.key.lexeme == field.key.lexeme) then 1 else 0

/-- A field by itself is read as the same field in a row. -/
theorem readsAs_field {field} (h : Field.ofTokens? item = some field) (hinner : Inner item) :
    ReadsAs Field.bare repeats (nested depth).field item field.bare := by
  obtain ⟨t, hok, hrest, hreports⟩ := exists_of_alone? h
  intro earlier b v k s hnext hseen
  have hlike : Alike false v k ⟨start item, []⟩ s :=
    hseen.alike hinner.flat_start (ahead_start hinner.eof) rfl
  obtain ⟨key, t₁, hkey, hvalue⟩ := exists_of_bind_eq_ok (field_eq _ _ ▸ hok)
  have hmirrors : Mirrors false true v k Anywhere Token.bare
    (expect .identifier .expectedField) (expect .identifier .expectedField)
    ⟨start item, []⟩ s := .expect nofun
  -- The key is read as by itself; behind it there may be one report more.
  have hbehind : ∀ key' k' s', key'.bare = key.bare → Alike true v k' t₁ s' →
      (∃ u, (nested depth).fieldValue key' s' = .error .endless u) ∨
      ∃ field' t', (nested depth).fieldValue key' s' = .ok field' t' ∧
        field'.bare = field.bare ∧ Seen v k' t' := by
    intro key' k' s' hsame hlike
    rcases (tails_fieldValue (local_nested v k' (depthOf item) depth)
      hsame).same.alike hlike field t hvalue (.inr hnext) with
      hendless | ⟨field', t', hok', hfield, hlike'⟩
    · exact .inl hendless
    · exact .inr ⟨field', t', hok', hfield, .of_alike hlike' hrest hreports⟩
  rw [field_eq]
  rcases hmirrors.alike hlike key t₁ hkey trivial with ⟨w, hw⟩ | ⟨key', s₁, hkey', hsame, hlike₁⟩
  · exact .inl ⟨w, bind_of_error hw⟩
  · have hname : field.bare.key.lexeme = key'.lexeme := by
      obtain ⟨_, _, -, hvalue⟩ := exists_of_bind_eq_ok hvalue
      obtain ⟨_, _, -, hvalue⟩ := exists_of_bind_eq_ok hvalue
      cases hvalue
      exact (Token.lexeme_of_bare_eq hsame).symm
    rw [bind_of_ok hkey', repeats, any_key_bare, hname]
    split
    · refine hbehind key' (k + 1) _ hsame ⟨hlike₁.left, hlike₁.right, hlike₁.ahead, ?_⟩
      rw [length_cons, hlike₁.reports, Nat.add_assoc]
    · exact hbehind key' k s₁ hsame hlike₁

theorem seen_start (heof : ∀ t ∈ item, t.kind ≠ .eof) :
    Seen (sights false item) 0 ⟨start item, []⟩ :=
  ⟨settled_start item, by rw [ahead_start heof], rfl⟩

/-- The first token of tokens is seen from their beginning. -/
theorem firstKind?_start (heof : ∀ t ∈ item, t.kind ≠ .eof) (hkind : (start item).kind ≠ .eof) :
    firstKind? item = some (start item).kind := by
  have hnext : (start item).kind = next (sights false item) := (seen_start heof).kind
  cases hfirst : firstKind? item with
  | none =>
    have hsoft : Soft item := by
      rw [firstKind?, Option.map_eq_none_iff, find?_eq_none] at hfirst
      intro t ht
      simpa using hfirst t ht
    have hnone := sights_soft hsoft [] false
    rw [append_nil, sights] at hnone
    rw [hnext, hnone] at hkind
    exact absurd rfl hkind
  | some kind =>
    have hsights := next_sights hfirst [] false
    rw [append_nil] at hsights
    rw [hnext, hsights]

theorem firstKind?_of_expression (h : Expr.ofTokens? item = some e)
    (hinner : Inner item) : ∃ kind ∈ startKinds, firstKind? item = some kind := by
  obtain ⟨t, hok, -, -⟩ := exists_of_alone? h
  have hkind := kind_of_expression hok
  refine ⟨_, hkind, firstKind?_start hinner.eof fun heof => ?_⟩
  rw [heof] at hkind
  revert hkind
  decide

theorem firstKind?_of_field {field} (h : Field.ofTokens? item = some field) (hinner : Inner item) :
    firstKind? item = some .identifier := by
  obtain ⟨t, hok, -, -⟩ := exists_of_alone? h
  have hkind : (start item).kind = .identifier := by
    by_contra hne
    obtain ⟨_, _, hkey, -⟩ := exists_of_bind_eq_ok hok
    rw [expect, at?_of_kind_ne hne] at hkey
    cases hkey
  rw [firstKind?_start hinner.eof (by simp [hkind]), hkind]

/-! ## Items in a row -/

section Rounds

variable {α γ : Type} {view : α → γ} {cost : List γ → γ → Nat} {item : List α → Parser α}
  {closer : Token.Kind} {round : α → Parser (Option α)} {a : α} {Between : List Token → Prop}
  {items : List (List Token)} {sort : Bracket} {after : List Token}

/-- A round of the items of a literal. -/
def elementRound (closer : Token.Kind) (item : List α → Parser α) (found : List α × Bool) :
    Parser (Option (List α × Bool)) := do
  if !found.2 || (← at? closer) then return none
  let next ← item found.1
  let more ← separator closer
  return some (found.1 ++ [next], more)

theorem elements_eq (closer : Token.Kind) (item : List α → Parser α) : elements closer item = (do
      let found ← iterate (elementRound closer item) ([], true)
      return found.1) := rfl

/-- Behind `between` another item follows, and nothing goes on with the one before. -/
def Divides (closer : Token.Kind) (between after : List Token) : Prop := ∀ b : Bool,
  next (sights b (between ++ after)) ∉ trailing ∧
  ∃ b', ∀ k s, Seen (sights b (between ++ after)) k s →
    ∃ t, separator closer s = .ok true t ∧ Seen (sights b' after) k t

/-- Items with something between each two. -/
inductive Joined (Between : List Token → Prop) : List (List Token) → List Token → Prop
  | one {item : List Token} : Joined Between [item] item
  | more {item between tokens : List Token} {later : List (List Token)}
    (hbetween : Between between) (hlater : Joined Between later tokens) :
    Joined Between (item :: later) (item ++ (between ++ tokens))

theorem Joined.exists_cons (h : Joined Between items tokens) :
    ∃ first later behind, items = first :: later ∧ tokens = first ++ behind := by
  cases h with
  | one => exact ⟨tokens, [], [], rfl, (append_nil _).symm⟩
  | more => exact ⟨_, _, _, rfl, rfl⟩

/-- The reports that items cost behind others. -/
def total (cost : List γ → γ → Nat) : List γ → List γ → Nat
  | _, [] => 0
  | earlier, a :: later => cost earlier a + total cost (earlier ++ [a]) later

/-- Whether tokens begin as an expression does. -/
def StartsItem (tokens : List Token) : Prop := ∃ kind ∈ startKinds, firstKind? tokens = some kind

/-- A round reads an item and what divides it from the next, or from the end. -/
theorem elementRound_item {a w more} (hreads : ReadsAs view cost item tokens a)
    (hstarts : StartsItem tokens) (hcloser : closer ∉ startKinds)
    (hsights : sights b (tokens ++ after) = sights b tokens ++ v) (hnext : next v ∉ trailing)
    (hseparator : ∀ k s, Seen v k s → ∃ t, separator closer s = .ok more t ∧ Seen w k t)
    (hseen : Seen (sights b (tokens ++ after)) k s) (earlier : List α) :
    (∃ u, elementRound closer item (earlier, true) s = .error .endless u) ∨
    ∃ a' t, elementRound closer item (earlier, true) s = .ok (some (earlier ++ [a'], more)) t ∧
      view a' = a ∧ Seen w (k + cost (earlier.map view) a) t := by
  obtain ⟨kind, hkind, hfirst⟩ := hstarts
  have hopen : s.cursor.kind ≠ closer := by
    rw [hseen.kind, next_sights hfirst]
    rintro rfl
    exact hcloser hkind
  have hround : elementRound closer item (earlier, true) s = (do
      let next ← item earlier
      let more ← separator closer
      return some (earlier ++ [next], more)) s := at?_of_kind_ne hopen
  rw [hround]
  rcases hreads earlier b v k s hnext (hsights ▸ hseen) with ⟨u, hu⟩ | ⟨a', t, hok, ha, hbehind⟩
  · exact .inl ⟨u, bind_of_error hu⟩
  · obtain ⟨u, hmore, hu⟩ := hseparator _ t hbehind
    refine .inr ⟨a', u, ?_, ha, hu⟩
    rw [bind_of_ok hok, bind_of_ok hmore]
    rfl

/-- Behind the last item the literal ends. -/
theorem separator_closer (hafter : firstKind? after = some (.closing sort)) (k : Nat) (s : State)
    (hseen : Seen (sights b after) k s) :
    ∃ t, separator (.closing sort) s = .ok false t ∧ Seen (sights b after) k t := by
  have hkind : s.cursor.kind = .closing sort := by
    rw [hseen.kind]
    simpa using next_sights hafter [] b
  refine ⟨s, ?_, hseen⟩
  rw [separator, accept_bind, at?_of_kind_ne (by simp [hkind])]
  change EStateM.Result.ok (s.cursor.afterSoftBreak && decide (s.cursor.kind ≠ .closing sort)) s = _
  rw [hkind, decide_eq_false (not_not.mpr rfl), Bool.and_false]

theorem iterateUpTo_of_some {a'} (n : Nat) (h : round a s = .ok (some a') t) :
    iterateUpTo round (n + 1) a s = iterateUpTo round n a' t := by
  rw [iterateUpTo, bind_of_ok h]

theorem iterateUpTo_of_none (n : Nat)
    (h : round a s = .ok none t) : iterateUpTo round (n + 1) a s = .ok a t := by
  rw [iterateUpTo, bind_of_ok h]
  rfl

theorem iterateUpTo_of_error (n : Nat)
    (h : round a s = .error .endless t) : iterateUpTo round (n + 1) a s = .error .endless t := by
  rw [iterateUpTo, bind_of_error h]

/-- **Items that are divided are read one by one**, each as by itself. -/
theorem rounds_of_joined {inner} (hafter : firstKind? after = some (.closing sort))
    (h : Joined Between items inner) : ∀ {as},
    List.Forall₂ (ReadsAs view cost item) items as → (∀ tokens ∈ items, StartsItem tokens) →
    (∀ between tokens behind, Between between → tokens ∈ items.tail →
      Divides (.closing sort) between (tokens ++ behind)) →
    ∀ (n : Nat) (earlier : List α) (b : Bool) (k : Nat) (s : State),
      Seen (sights b (inner ++ after)) k s →
      (∃ u, iterateUpTo (elementRound (.closing sort) item) n (earlier, true) s
        = .error .endless u) ∨
      ∃ found t, iterateUpTo (elementRound (.closing sort) item) n (earlier, true) s = .ok found t ∧
        found.1.map view = earlier.map view ++ as ∧
        ∃ b', Seen (sights b' after) (k + total cost (earlier.map view) as) t := by
  have hcloser : Token.Kind.closing sort ∉ startKinds := by cases sort <;> decide
  have hstops : Token.Kind.closing sort ∉ trailing := by cases sort <;> decide
  induction h with
  | @one tokens =>
    intro as has hstarts _ n earlier b k s hseen
    obtain ⟨a, _, hreads, hnone, rfl⟩ := forall₂_cons_left_iff.mp has
    obtain rfl := forall₂_nil_left_iff.mp hnone
    obtain ⟨b', hsights⟩ := exists_sights_append tokens after b
    have hnext : next (sights b' after) ∉ trailing := by
      have := next_sights hafter [] b'
      rw [append_nil] at this
      rwa [this]
    cases n with
    | zero => exact .inl ⟨s, rfl⟩
    | succ n =>
      rcases elementRound_item hreads (hstarts _ mem_cons_self) hcloser hsights hnext
        (separator_closer hafter) hseen earlier with ⟨u, hu⟩ | ⟨a', t, hok, ha, hu⟩
      · exact .inl ⟨u, iterateUpTo_of_error n hu⟩
      · rw [iterateUpTo_of_some n hok]
        cases n with
        | zero => exact .inl ⟨t, rfl⟩
        | succ n =>
          refine .inr ⟨_, t, iterateUpTo_of_none n rfl, ?_, b', hu⟩
          rw [map_append, map_singleton, ha]
  | @more tokens between inner later hbetween hlater ih =>
    intro as has hstarts hdivides n earlier b k s hseen
    obtain ⟨a, as, hreads, hitems, rfl⟩ := forall₂_cons_left_iff.mp has
    obtain ⟨hfirst, hstarts⟩ := forall_mem_cons.mp hstarts
    rw [append_assoc, append_assoc] at hseen
    obtain ⟨b₁, hsights⟩ := exists_sights_append tokens (between ++ (inner ++ after)) b
    obtain ⟨next, more, behind, rfl, rfl⟩ := hlater.exists_cons
    have hdivide := hdivides between next (behind ++ after) hbetween mem_cons_self
    rw [← append_assoc] at hdivide
    obtain ⟨hnext, b₂, hseparator⟩ := hdivide b₁
    cases n with
    | zero => exact .inl ⟨s, rfl⟩
    | succ n =>
      rcases elementRound_item hreads hfirst hcloser hsights hnext hseparator hseen earlier with
        ⟨u, hu⟩ | ⟨a', t, hok, ha, hu⟩
      · exact .inl ⟨u, iterateUpTo_of_error n hu⟩
      · rw [iterateUpTo_of_some n hok]
        have hlater := ih hitems hstarts (fun between tokens behind hbetween hmem =>
          hdivides between tokens behind hbetween (mem_cons_of_mem _ hmem)) n (earlier ++ [a']) b₂
          _ t hu
        rwa [map_append, map_singleton, ha, append_assoc, singleton_append,
          Nat.add_assoc] at hlater

/-- **Items that are joined are read one by one.** -/
theorem elements_of_joined {lead inner as} (hlead : Soft lead) (h : Joined Between items inner)
    (hafter : firstKind? after = some (.closing sort))
    (hreads : List.Forall₂ (ReadsAs view cost item) items as)
    (hstarts : ∀ tokens ∈ items, StartsItem tokens)
    (hdivides : ∀ between tokens behind, Between between → tokens ∈ items.tail →
      Divides (.closing sort) between (tokens ++ behind))
    (hseen : Seen (sights b (lead ++ (inner ++ after))) k s) :
    (∃ u, elements (.closing sort) item s = .error .endless u) ∨
    ∃ as' t, elements (.closing sort) item s = .ok as' t ∧ as'.map view = as ∧
      ∃ b', Seen (sights b' after) (k + total cost [] as) t := by
  obtain ⟨n, hn⟩ := exists_iterate_eq (elementRound (.closing sort) item) ([], true) s
  rw [sights_soft hlead] at hseen
  rw [elements_eq]
  rcases rounds_of_joined hafter h hreads hstarts hdivides n [] _ k s hseen with
    ⟨u, hu⟩ | ⟨found, t, hok, hfound, hbehind⟩
  · exact .inl ⟨u, bind_of_error (hn.trans hu)⟩
  · refine .inr ⟨found.1, t, ?_, hfound, hbehind⟩
    rw [bind_of_ok (hn.trans hok)]
    rfl

/-- A round that goes on has read an item. -/
theorem exists_of_elementRound {found next}
    (h : elementRound closer item found s = .ok (some next) t) :
    ∃ a more u, item found.1 s = .ok a u ∧ next = (found.1 ++ [a], more) := by
  have hround : elementRound closer item found s
      = (if (!found.2 || decide (s.cursor.kind = closer)) = true then Pure.pure none else do
        let next ← item found.1
        let more ← separator closer
        return some (found.1 ++ [next], more) : Parser (Option (List α × Bool))) s := rfl
  rw [hround] at h
  split at h
  · cases h
  · obtain ⟨a, u, ha, h⟩ := exists_of_bind_eq_ok h
    obtain ⟨more, w, -, h⟩ := exists_of_bind_eq_ok h
    exact ⟨a, more, u, ha, (Option.some.inj (EStateM.Result.ok.inj h).1).symm⟩

/-- Items that were read stay. -/
theorem exists_append_of_rounds {n found found'}
    (hok : iterateUpTo (elementRound closer item) n found s = .ok found' t) :
    ∃ more, found'.1 = found.1 ++ more := by
  have hround : ∀ {next s next' t}, (∃ more, next.1 = found.1 ++ more) →
      elementRound closer item next s = .ok (some next') t → ∃ more, next'.1 = found.1 ++ more := by
    rintro next s _ t ⟨more, hmore⟩ hround
    obtain ⟨a, _, _, -, rfl⟩ := exists_of_elementRound hround
    exact ⟨more ++ [a], by rw [hmore, append_assoc]⟩
  obtain ⟨_, hmore, -⟩ := exists_of_iterateUpTo_eq_ok
    (P := fun next _ => ∃ more, next.1 = found.1 ++ more) hround ⟨[], (append_nil _).symm⟩ hok
  exact hmore

end Rounds

end Parser

end Offside
