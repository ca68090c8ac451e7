import Mathlib.Logic.Relation
import Terse.Proofs.Segmentation

/-!
# The states of a scan

A scan goes from state to state until nothing is left to read or a fault is met.
`Reaches next s t` says that a scan with the step `next` comes from `s` to `t`,
and `Scans o x s` that `s` is one of the states in which `x` is scanned.

What a step can do is said once, by the four cases of `Move`: it leaves out a
comment, copies a literal, writes the gap of a run, or copies a byte. An
invariant is proved by going through these cases and then holds in every state.

Only the step that stands in front of a slash asks whether a regular expression
opens there (`State.Asks`). The rule by which that is decided is a parameter of
`stepBy`, and the machine is the case of the rule `opensRegex`. Rules that agree
wherever the first of them is asked give the same result (`runBy_eq_of_agree`).
-/

namespace Terse.Script

open Reader

/-! ### Steps with any rule for slashes -/

namespace State

/-- A slash is read next, and it starts no comment: it has to be decided whether
a regular expression opens. -/
def Asks (s : State) : Prop :=
  s.reader.peek = some slash ∧ s.reader.skipComment? = .ok none

end State

/-- What a step that meets no fault does. -/
inductive Move (opens : Bytes → Bool) (s : State) : State → Prop
  | comment {r : Reader} (hpeek : s.reader.peek = some slash)
    (hskip : s.reader.skipComment? = .ok (some r)) :
      Move opens s { s with reader := r }
  | literal {d : UInt8} {r : Reader} {s' : State}
    (hnext : s.reader.next? = some (d, r))
      (hd : isQuote d = true ∨ (d = slash ∧ s.Asks ∧ opens s.trail = true))
        (hcopy : s.copyLiteral = (.ok (), s')) :
      Move opens s s'
  | gap {b : UInt8} {r : Reader} {s' : State}
    (hnext : s.reader.next? = some (b, r)) (hb : isBlank b = true)
      (hgap : s.writeGap = (.ok (), s')) : Move opens s s'
  | copy {b : UInt8} {r : Reader} (hnext : s.reader.next? = some (b, r))
    (hquote : isQuote b = false)
      (hb : isBlank b = false)
        (hslash : b = slash → s.Asks ∧ opens s.trail = false) :
      Move opens s { reader := r, trail := b :: s.trail }

theorem State.eq_ok_of_settle {p : Except Fault Unit × State} {s : State}
    (h : settle p = .ok s) :
    p = (.ok (), s) := by
  obtain ⟨_ | _, t⟩ := p
  · cases h
  · cases h
    rfl

theorem Reader.peek_of_next? {r r' : Reader} {b : UInt8}
    (h : r.next? = some (b, r')) : r.peek = some b := by
  rw [peek_eq_head?_pending, pending_of_next? h]
  rfl

theorem move_of_stepBy {opens : Bytes → Bool} {s s' : State}
    (h : stepBy opens s = some (.ok s')) :
    Move opens s s' := by
  unfold stepBy at h
  split at h
  · cases h
  · next b r hnext =>
    have hpeek := Reader.peek_of_next? hnext
    split at h
    · next hslash =>
      obtain rfl := beq_iff_eq.mp hslash
      split at h
      · cases h
      · next hskip =>
        cases h
        exact .comment hpeek hskip
      · next hskip =>
        split at h
        · next hopens =>
          exact .literal hnext (.inr ⟨rfl, ⟨hpeek, hskip⟩, hopens⟩)
            (State.eq_ok_of_settle (Option.some.inj h))
        · next hopens =>
          cases h
          exact .copy hnext rfl rfl fun _ => ⟨⟨hpeek, hskip⟩,
            Bool.eq_false_iff.mpr hopens⟩
    · next hslash =>
      split at h
      · next hquote =>
          exact .literal hnext (.inl hquote)
            (State.eq_ok_of_settle (Option.some.inj h))
      · next hquote =>
        split at h
        · next hb =>
            exact .gap hnext hb (State.eq_ok_of_settle (Option.some.inj h))
        · next hb =>
          cases h
          refine .copy hnext (Bool.eq_false_iff.mpr hquote)
            (Bool.eq_false_iff.mpr hb) fun he => ?_
          exact absurd (beq_iff_eq.mpr he) hslash

/-! ### States on the way -/

/-- A scan with the step `next` comes from one state to the other. -/
abbrev Reaches (next : State → Option (Except Fault State)) :
    State → State → Prop :=
  Relation.ReflTransGen fun s t => next s = some (.ok t)

/-- The states in which `x` is scanned. -/
def Scans (o : Options) (x : Bytes) (s : State) : Prop :=
  Reaches (step o) (.start x) s

namespace Reaches

variable {next : State → Option (Except Fault State)} {s s' t : State}

theorem eq_or_of_step (h : Reaches next s t) (hs : next s = some (.ok s')) :
    t = s ∨ Reaches next s' t := by
  rcases Relation.ReflTransGen.cases_head h with rfl | ⟨u, hu, hut⟩
  · exact .inl rfl
  · obtain rfl : s' = u := by simpa [hs] using hu
    exact .inr hut

theorem invariant {p : State → Prop}
    (hp : ∀ {s s'}, next s = some (.ok s') → p s → p s') (h : Reaches next s t)
    (hs : p s) : p t := by
  induction h with
  | refl => exact hs
  | tail _ hstep ih => exact hp hstep ih

/-- Two scans that make the same steps outside of `D` come together to the first
state in `D`, if one of them ever comes to such a state. -/
theorem exists_first {next' : State → Option (Except Fault State)}
    {D : State → Prop} (hsame : ∀ s, ¬ D s → next' s = next s)
    (h : Reaches next s t) (ht : D t) :
    ∃ u, Reaches next s u ∧ Reaches next' s u ∧ D u ∧ ∀ v, Reaches next s v →
      D v → Reaches next u v := by
  induction h using Relation.ReflTransGen.head_induction_on with
  | refl => exact ⟨t, .refl, .refl, ht, fun v hv _ => hv⟩
  | @head s s' hstep _ ih =>
    by_cases hs : D s
    · exact ⟨s, .refl, .refl, hs, fun v hv _ => hv⟩
    · obtain ⟨u, hu, hu', hD, hfirst⟩ := ih
      refine ⟨u, .head hstep hu, .head ((hsame s hs).trans hstep) hu', hD,
        fun v hv hDv => ?_⟩
      rcases hv.eq_or_of_step hstep with rfl | hv
      · exact absurd hDv hs
      · exact hfirst v hv hDv

theorem run_eq {o : Options} (h : Reaches (step o) s t) :
    run o s = run o t := by
  induction h with
  | refl => rfl
  | @tail u v _ hstep ih => rw [ih, Script.run_eq o u, hstep]

end Reaches

/-! ### Two rules -/

section

variable {p q : Bytes → Bool}

/-- Where the rule is not asked, or both rules give the same answer, the same
step is made. -/
theorem stepBy_eq_of_agree {s : State} (h : s.Asks → p s.trail = q s.trail) :
    stepBy p s = stepBy q s := by
  unfold stepBy
  split
  · rfl
  · next b r hnext =>
    split
    · next hslash =>
      obtain rfl := beq_iff_eq.mp hslash
      split
      · rfl
      · rfl
      · next hskip => rw [h ⟨Reader.peek_of_next? hnext, hskip⟩]
    · rfl

/-- Two rules that agree in every state in which the first one is asked give the
same result. -/
theorem runBy_eq_of_agree {s : State}
    (h : ∀ t, Reaches (stepBy p) s t → t.Asks → p t.trail = q t.trail) :
    runBy p s = runBy q s := by
  fun_induction runBy p s with
  | case1 s hs => rw [runBy_eq, ← stepBy_eq_of_agree (h s .refl), hs]
  | case2 s f hs => rw [runBy_eq, ← stepBy_eq_of_agree (h s .refl), hs]
  | case3 s s' hs hlt ih =>
    rw [runBy_eq q s, ← stepBy_eq_of_agree (h s .refl), hs]
    exact ih fun t ht => h t (.head hs ht)

end

end Terse.Script
