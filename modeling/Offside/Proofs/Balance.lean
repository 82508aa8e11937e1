import Offside.Proofs.Indentation

/-!
# Proofs/Balance — the widths of the open blocks

A scan keeps the widths of the blocks that are open on top of the margin of the text itself, which
is zero.  A scan leaves the widths as they are, adds one that is larger than all, or drops some from
the top, so they ascend at any time (`ascending_writes`); and as many are kept as the tokens so far
open blocks without closing them (`levelled_run`).  At the end all of them have been closed
(`indentation_balances`), whatever faults there are.
-/

namespace Offside.Token

open List

/-! ## Counting tokens -/

/-- How many tokens are of a kind. -/
def tally (kind : Kind) (tokens : List Token) : Nat := tokens.countP (·.kind = kind)

@[simp] theorem tally_cons (kind : Kind) (t : Token) (tokens : List Token) :
    tally kind (t :: tokens) = tally kind tokens + if t.kind = kind then 1 else 0 := by
  simp [tally, countP_cons]

@[simp] theorem tally_reverse (kind : Kind) (tokens : List Token) :
    tally kind tokens.reverse = tally kind tokens := countP_reverse

/-- Tokens that lead from one depth to another open and close as many blocks as that takes. -/
theorem tally_of_foldlM : ∀ {tokens depth depth'},
    tokens.foldlM deepen depth = some depth' →
      depth + tally .indent tokens = depth' + tally .dedent tokens
  | [], _, _, h => congrArg (· + 0) (Option.some.inj h)
  | t :: tokens, depth, depth', h => by
    obtain ⟨mid, hmid, hrest⟩ := Option.bind_eq_some_iff.mp h
    have ih := tally_of_foldlM hrest
    rw [tally_cons, tally_cons]
    unfold deepen at hmid
    split at hmid
    · next hkind =>
      cases hmid
      simp only [hkind, if_true, reduceCtorEq, if_false]
      omega
    · next hkind =>
      have hpred := Nat.ppred_eq_some.mp hmid
      simp only [hkind, if_true, reduceCtorEq, if_false]
      omega
    · next hindent hdedent =>
      cases hmid
      rw [if_neg hindent, if_neg hdedent]
      exact ih

/-- No more blocks are closed than were opened, as far as one reads. -/
theorem tally_le_of_prefix {tokens front depth} (h : tokens.foldlM deepen 0 = some depth)
    (hfront : front <+: tokens) : tally .dedent front ≤ tally .indent front := by
  obtain ⟨back, rfl⟩ := hfront
  rw [foldlM_append] at h
  obtain ⟨mid, hmid, -⟩ := Option.bind_eq_some_iff.mp h
  have := tally_of_foldlM hmid
  omega

namespace Scan

variable {s : Scan}

/-! ## Widths -/

/-- The widths of the margins that are open, the outermost first: that of the text itself, and those
of the open blocks. -/
def widths (s : Scan) : List Nat := 0 :: s.levels.reverse

theorem pairwise_widths : s.widths.Pairwise (· < ·) ↔ (s.levels ++ [0]).Pairwise (· > ·) := by
  have hreverse : s.widths = (s.levels ++ [0]).reverse := by
    rw [reverse_append, reverse_singleton, singleton_append]
    rfl
  rw [hreverse, pairwise_reverse]

/-- **The widths of the open blocks ascend**: one is added only if it is larger than the newest, and
the newest are dropped first. -/
theorem ascending_writes {P s'} (h : s.widths.Pairwise (· < ·)) (hw : Writes P s s') :
    s'.widths.Pairwise (· < ·) := by
  rw [pairwise_widths] at h ⊢
  induction hw with
  | same _ _ hlevels => rwa [hlevels]
  | trans _ _ ih ih' => exact ih' (ih h)
  | faults | opener | closer | lineBreak | piece => exact h
  | @indent s width hwider _ _ =>
    refine pairwise_cons.mpr ⟨fun w (hw : w ∈ s.levels ++ [0]) => ?_, h⟩
    -- The newest width is the largest of those that were open.
    have hle : w ≤ s.level := by
      unfold level
      cases hlevels : s.levels with
      | nil =>
        rw [hlevels] at hw
        exact (mem_singleton.mp hw).le
      | cons inner outer =>
        rw [hlevels, cons_append, pairwise_cons] at h
        rw [hlevels, cons_append] at hw
        rcases mem_cons.mp hw with rfl | hw
        · exact Nat.le_refl _
        · exact Nat.le_of_lt (h.1 w hw)
    exact Nat.lt_of_le_of_lt hle hwider
  | dedents hlevels =>
    rw [hlevels] at h
    exact h.sublist ((sublist_append_right _ _).append_right _)

/-! ## Whole scans -/

/-- What is kept of a text's indentation: widths that ascend from zero, one for each block that the
tokens so far have opened and not closed. -/
structure Levelled (s : Scan) : Prop where
  bottom : s.widths.head? = some 0
  ascending : s.widths.Pairwise (· < ·)
  height : (s.widths.length : Int) - 1 = tally .indent s.tokens - tally .dedent s.tokens

theorem Tallies.height (h : Tallies s) :
    (s.widths.length : Int) - 1 = tally .indent s.tokens - tally .dedent s.tokens := by
  have hdepth := tally_of_foldlM h.depth
  rw [tally_reverse, tally_reverse] at hdepth
  simp only [widths, length_cons, length_reverse]
  omega

/-- What every step preserves holds however far a scan has come. -/
theorem run_of_step {P : Scan → Prop} (hstep : ∀ s, s.rest ≠ [] → P s → P s.step) :
    ∀ (n : Nat) {s : Scan}, P s → P (run n s)
  | 0, _, h => h
  | n + 1, s, h => by
    by_cases hrest : s.rest = []
    · rwa [run_of_rest_eq_nil hrest]
    · rw [run_succ hrest]
      exact run_of_step hstep n (hstep s hrest h)

theorem tallies_start (text : List Char) : Tallies (start text) := ⟨rfl, forall_mem_nil _⟩

theorem levelled_run (n : Nat) (text : List Char) : Levelled (run n (start text)) := by
  have htallies : Tallies (run n (start text)) :=
    run_of_step (fun _ hrest h => h.step hrest) n (tallies_start text)
  have hascending : (run n (start text)).widths.Pairwise (· < ·) :=
    run_of_step (P := fun s => s.widths.Pairwise (· < ·)) (fun _ hrest h =>
      ascending_writes h (writes_step (P := fun _ => True) hrest fun _ _ => trivial)) n
      (pairwise_singleton _ _)
  exact ⟨rfl, hascending, htallies.height⟩

/-- At the end of a text only its own margin is left, and every block was closed. -/
theorem Tallies.levelled_finish (h : Tallies s) : Levelled s.finish := by
  obtain ⟨closed, hclosed, hlevels, final, hfinal, htokens⟩ := h.finish
  have hheight := hclosed.height
  have hwidths : closed.widths = s.finish.widths := by
    rw [widths, hlevels]
    rfl
  refine ⟨rfl, pairwise_singleton _ _, ?_⟩
  rw [hwidths] at hheight
  rw [hheight, htokens, tally_cons, tally_cons, hfinal]
  rfl

end Scan

/-- **Indentation balances in every text.**  Its tokens end with the only end of input, close as
many blocks as they open and never more than they have opened; and however far the scan has come,
the widths that it keeps ascend from zero, one for each block that is open. -/
theorem indentation_balances (text : List Char) :
    (∃ body final, (scan text).tokens = body ++ [final] ∧ final.kind = .eof ∧
      ∀ t ∈ body, t.kind ≠ .eof) ∧
    tally .indent (scan text).tokens = tally .dedent (scan text).tokens ∧
    (∀ front, front <+: (scan text).tokens → tally .dedent front ≤ tally .indent front) ∧
    ∀ n, (Scan.run n (.start text)).Levelled ∧ (Scan.run n (.start text)).finish.Levelled := by
  obtain ⟨body, final, htokens, hfinal, hbody, hdepth⟩ := exists_balanced_scan text
  have hwhole : (scan text).tokens.foldlM deepen 0 = some 0 := by
    rw [htokens, foldlM_concat final hdepth, deepen_of_kind]
    rw [hfinal]
    decide
  have hcount := tally_of_foldlM hwhole
  refine ⟨⟨body, final, htokens, hfinal, hbody⟩, by omega, fun front => tally_le_of_prefix hwhole,
    fun n => ⟨Scan.levelled_run n text, ?_⟩⟩
  exact Scan.Tallies.levelled_finish
    (Scan.run_of_step (fun _ hrest h => h.step hrest) n (Scan.tallies_start text))

end Offside.Token
