import Mathlib

/-!
# Deterministic machines and simulation between them

A deterministic machine is a step function that either gives the next state or
ends with a result. This module has its runs, the invariant rule, and the
simulation between two machines where one step of the abstract machine is a
whole segment of the concrete one, from one *head* state to the next.

Results:
1. `ends_unique`: a run has at most one result.
2. `reaches_invariant`: a property kept by every step holds in every state reached, and
   `ends_of_measure`: a run on which a number decreases ends.
3. `Simulation.ends_iff`: the concrete machine ends iff the abstract one does,
   with related results.
4. `Simulation.forward`, `Simulation.backward`: the head states the concrete
   machine passes are related, one by one, to the states of an abstract run.
5. `LockStep.run`: machines in lock step have related runs of every length.
6. `LockStepUnless.run`: so have machines of which the abstract one may give up.
-/

namespace Machine

/-- What one step does: go on in a new state, or end with a result. -/
inductive Outcome (σ ρ : Type*)
  | next (s : σ)
  | done (r : ρ)
deriving DecidableEq, Repr

variable {σ ρ τ υ : Type*}

/-- `run step n s`: the outcome of at most `n` steps from `s`. -/
def run (step : σ → Outcome σ ρ) : Nat → σ → Outcome σ ρ
  | 0, s => .next s
  | n + 1, s =>
    match step s with
    | .next s' => run step n s'
    | .done r => .done r

/-- `n` steps lead from `s` to `s'`. -/
def ReachesIn (step : σ → Outcome σ ρ) (n : Nat) (s s' : σ) : Prop :=
  run step n s = .next s'

/-- Some number of steps leads from `s` to `s'`. -/
def Reaches (step : σ → Outcome σ ρ) (s s' : σ) : Prop :=
  ∃ n, ReachesIn step n s s'

/-- The run from `s` ends with the result `r` in its `n`-th step or before. -/
def EndsIn (step : σ → Outcome σ ρ) (n : Nat) (s : σ) (r : ρ) : Prop :=
  run step n s = .done r

/-- The run from `s` ends with the result `r`. -/
def Ends (step : σ → Outcome σ ρ) (s : σ) (r : ρ) : Prop :=
  ∃ n, EndsIn step n s r

/-! ## 1. Runs -/

section Runs
variable {step : σ → Outcome σ ρ}

theorem run_next {s s' : σ} (h : step s = .next s') (n : Nat) :
    run step (n + 1) s = run step n s' := by
  simp only [run, h]

theorem run_done {s : σ} {r : ρ} (h : step s = .done r) (n : Nat) :
    run step (n + 1) s = .done r := by
  simp only [run, h]

theorem run_add {m : Nat} {s s' : σ} (h : run step m s = .next s') (n : Nat) :
    run step (m + n) s = run step n s' := by
  induction m generalizing s with
  | zero =>
    simp only [run, Outcome.next.injEq] at h
    rw [h, Nat.zero_add]
  | succ m ih =>
    cases hs : step s with
    | next t =>
      rw [run_next hs] at h
      rw [Nat.add_right_comm, run_next hs, ih h]
    | done r => rw [run_done hs] at h; cases h

theorem run_add_done {m : Nat} {s : σ} {r : ρ} (h : run step m s = .done r) (n : Nat) :
    run step (m + n) s = .done r := by
  induction m generalizing s with
  | zero => cases h
  | succ m ih =>
    rw [Nat.add_right_comm]
    cases hs : step s with
    | next t => rw [run_next hs] at h; rw [run_next hs, ih h]
    | done r' => rw [run_done hs] at h; rw [run_done hs, h]

/-- A run has at most one result. -/
theorem ends_unique {s : σ} {r r' : ρ} (h : Ends step s r) (h' : Ends step s r') : r = r' := by
  obtain ⟨n, hn⟩ := h
  obtain ⟨n', hn'⟩ := h'
  have e := run_add_done hn n'
  rw [Nat.add_comm, run_add_done hn' n] at e
  exact (Outcome.done.inj e).symm

theorem reaches_refl (s : σ) : Reaches step s s :=
  ⟨0, rfl⟩

theorem reaches_trans {s t u : σ} (h : Reaches step s t) (h' : Reaches step t u) :
    Reaches step s u := by
  obtain ⟨m, hm⟩ := h
  obtain ⟨n, hn⟩ := h'
  exact ⟨m + n, (run_add hm n).trans hn⟩

theorem reaches_of_next {s t : σ} (h : step s = .next t) : Reaches step s t :=
  ⟨1, run_next h 0⟩

theorem reaches_step {s t u : σ} (h : Reaches step s t) (hs : step t = .next u) :
    Reaches step s u :=
  reaches_trans h (reaches_of_next hs)

theorem reachesIn_succ {n : Nat} {s t u : σ} (h : ReachesIn step n s t)
    (hs : step t = .next u) : ReachesIn step (n + 1) s u :=
  (run_add h 1).trans (run_next hs 0)

/-- The last step of a run of `n + 1` steps. -/
theorem reachesIn_last {n : Nat} {s u : σ} (h : ReachesIn step (n + 1) s u) :
    ∃ t, ReachesIn step n s t ∧ step t = .next u := by
  cases ht : run step n s with
  | done r =>
    have e := run_add_done ht 1
    unfold ReachesIn at h
    rw [h] at e
    cases e
  | next t =>
    refine ⟨t, ht, ?_⟩
    have e : run step 1 t = .next u := (run_add ht 1).symm.trans h
    cases hs : step t with
    | next v => rw [run_next hs] at e; exact e
    | done r => rw [run_done hs] at e; cases e

theorem ends_of_done {s : σ} {r : ρ} (h : step s = .done r) : Ends step s r :=
  ⟨1, run_done h 0⟩

theorem ends_of_reaches {s t : σ} {r : ρ} (h : Reaches step s t) (h' : Ends step t r) :
    Ends step s r := by
  obtain ⟨m, hm⟩ := h
  obtain ⟨n, hn⟩ := h'
  exact ⟨m + n, (run_add hm n).trans hn⟩

/-- A state on a run that ends is itself on the way to the same result. -/
theorem ends_from_reaches {s t : σ} {r : ρ} (h : Reaches step s t) (h' : Ends step s r) :
    Ends step t r := by
  obtain ⟨m, hm⟩ := h
  obtain ⟨n, hn⟩ := h'
  refine ⟨n, ?_⟩
  have e := run_add_done hn m
  rw [Nat.add_comm, run_add hm n] at e
  exact e

/-- The invariant rule: what every step keeps holds in every state reached. -/
theorem reaches_invariant {I : σ → Prop} (keep : ∀ s s', I s → step s = .next s' → I s')
    {s s' : σ} (h : Reaches step s s') (hs : I s) : I s' := by
  obtain ⟨n, hn⟩ := h
  induction n generalizing s with
  | zero => cases hn; exact hs
  | succ n ih =>
    unfold ReachesIn at hn
    cases hstep : step s with
    | next t => rw [run_next hstep] at hn; exact ih (keep s t hs hstep) hn
    | done r => rw [run_done hstep] at hn; cases hn

/-- A run on which a number decreases comes to its end. -/
theorem ends_of_measure {I : σ → Prop} (measure : σ → Nat)
    (keep : ∀ s s', I s → step s = .next s' → I s' ∧ measure s' < measure s) {s : σ} (hs : I s) :
    ∃ r, Ends step s r := by
  induction hn : measure s using Nat.strong_induction_on generalizing s with
  | _ n ih =>
    cases hstep : step s with
    | done r => exact ⟨r, 1, run_done hstep 0⟩
    | next s' =>
      obtain ⟨hs', hlt⟩ := keep s s' hs hstep
      obtain ⟨r, m, hr⟩ := ih (measure s') (hn ▸ hlt) hs' rfl
      exact ⟨r, m + 1, (run_next hstep m).trans hr⟩

/-- The last step of a run that ends: `n` steps on, then the result. -/
theorem endsIn_cases {n : Nat} {s : σ} {r : ρ} (h : EndsIn step n s r) :
    ∃ m t, m < n ∧ ReachesIn step m s t ∧ step t = .done r := by
  induction n generalizing s with
  | zero => cases h
  | succ n ih =>
    unfold EndsIn at h
    cases hs : step s with
    | next u =>
      rw [run_next hs] at h
      obtain ⟨m, t, hm, ht, hd⟩ := ih h
      exact ⟨m + 1, t, by omega, (run_next hs m).trans ht, hd⟩
    | done r' =>
      rw [run_done hs] at h
      cases h
      exact ⟨0, s, by omega, rfl, hs⟩

theorem endsIn_of_reachesIn {n : Nat} {s t : σ} {r : ρ} (h : ReachesIn step n s t)
    (hd : step t = .done r) : EndsIn step (n + 1) s r :=
  (run_add h 1).trans (run_done hd 0)

/-- No state of a run comes after the one in which it ends. -/
theorem reachesIn_le_of_done {m n : Nat} {s t u : σ} {r : ρ} (h : ReachesIn step m s t)
    (hd : step t = .done r) (h' : ReachesIn step n s u) : n ≤ m := by
  rcases Nat.lt_or_ge m n with hlt | hge
  · have e := run_add_done (endsIn_of_reachesIn h hd) (n - (m + 1))
    rw [Nat.add_sub_cancel' hlt] at e
    unfold ReachesIn at h'
    rw [h'] at e
    cases e
  · exact hge

/-- A run ends in one way only, after one number of steps. -/
theorem endsIn_unique {m n : Nat} {s t u : σ} {r r' : ρ} (h : ReachesIn step m s t)
    (hd : step t = .done r) (h' : ReachesIn step n s u) (hd' : step u = .done r') :
    m = n ∧ t = u ∧ r = r' := by
  obtain rfl : m = n :=
    Nat.le_antisymm (reachesIn_le_of_done h' hd' h) (reachesIn_le_of_done h hd h')
  cases h.symm.trans h'
  cases hd.symm.trans hd'
  exact ⟨rfl, rfl, rfl⟩

end Runs

/-! ## 2. Segments between heads -/

/-- `Segment step Head s o`: from `s` one or more steps lead to the outcome `o`,
and no state strictly between is a head. -/
inductive Segment (step : σ → Outcome σ ρ) (Head : σ → Prop) : σ → Outcome σ ρ → Prop
  | last {s : σ} {o : Outcome σ ρ} : step s = o → Segment step Head s o
  | cons {s t : σ} {o : Outcome σ ρ} :
      step s = .next t → ¬ Head t → Segment step Head t o → Segment step Head s o

/-- `Between step Head c c'`: one segment leads from `c` to the head `c'`. -/
def Between (step : σ → Outcome σ ρ) (Head : σ → Prop) (c c' : σ) : Prop :=
  Segment step Head c (.next c') ∧ Head c'

/-- `Path r l s t`: the steps of `r` lead from `s` to `t`, and `l` is the list of
the states they start in. -/
inductive Path (r : σ → σ → Prop) : List σ → σ → σ → Prop
  | nil {s : σ} : Path r [] s s
  | cons {s t u : σ} {l : List σ} : r s t → Path r l t u → Path r (s :: l) s u

section Paths
variable {r q : σ → σ → Prop} {r' : τ → τ → Prop}

theorem Path.append {l l' : List σ} {s t u : σ} (h : Path r l s t) (h' : Path r l' t u) :
    Path r (l ++ l') s u := by
  induction h with
  | nil => exact h'
  | cons hs _ ih => exact .cons hs (ih h')

theorem Path.mono (h : ∀ {s t}, r s t → q s t) {l : List σ} {s t : σ} (hp : Path r l s t) :
    Path q l s t := by
  induction hp with
  | nil => exact .nil
  | cons hs _ ih => exact .cons (h hs) ih

theorem Path.reflTransGen {l : List σ} {s t : σ} (h : Path r l s t) :
    Relation.ReflTransGen r s t := by
  induction h with
  | nil => exact .refl
  | cons hs _ ih => exact .head hs ih

/-- A path on which a property holds of every state that it steps from. -/
theorem Path.and_left {p : σ → Prop} {l : List σ} {s t : σ} (h : Path r l s t)
    (hp : ∀ u ∈ l, p u) : Path (fun u v => p u ∧ r u v) l s t := by
  induction h with
  | nil => exact .nil
  | cons hs _ ih =>
    rw [List.forall_mem_cons] at hp
    exact .cons ⟨hp.1, hs⟩ (ih hp.2)

theorem Path.forall_left {p : σ → Prop} {l : List σ} {s t : σ}
    (h : Path (fun u v => p u ∧ r u v) l s t) : ∀ u ∈ l, p u := by
  induction h with
  | nil => exact fun _ hu => absurd hu List.not_mem_nil
  | cons hs _ ih => exact List.forall_mem_cons.mpr ⟨hs.1, ih⟩

/-- The states of a path are reached from its first one. -/
theorem Path.reaches_mem {l : List σ} {s t u : σ} (h : Path r l s t) (hu : u ∈ l) :
    Relation.ReflTransGen r s u := by
  induction h with
  | nil => cases hu
  | cons hs _ ih =>
    rcases List.mem_cons.mp hu with rfl | hrest
    · exact .refl
    · exact .head hs (ih hrest)

theorem exists_path {s t : σ} (h : Relation.ReflTransGen r s t) : ∃ l, Path r l s t := by
  induction h with
  | refl => exact ⟨[], .nil⟩
  | tail _ hs ih =>
    obtain ⟨l, hl⟩ := ih
    exact ⟨l ++ [_], hl.append (.cons hs .nil)⟩

/-- What every state of a path hands on to the next, its first state hands on to the last. -/
theorem Path.invariant {I : σ → Prop} {l : List σ} {s t : σ} (h : Path r l s t)
    (keep : ∀ {u v}, u ∈ l → I u → r u v → I v) (hs : I s) : I t := by
  induction h with
  | nil => exact hs
  | cons hr _ ih =>
    exact ih (fun hu => keep (List.mem_cons_of_mem _ hu)) (keep List.mem_cons_self hs hr)

/-- When every step of `r` is matched by one of `r'`, so is every path, state by state. -/
theorem Path.simulate {R : σ → τ → Prop}
    (step : ∀ {s a t}, R s a → r s t → ∃ b, R t b ∧ r' a b)
    {l : List σ} {s t : σ} {a : τ} (h : Path r l s t) (hR : R s a) :
    ∃ b l', R t b ∧ Path r' l' a b ∧ List.Forall₂ R l l' := by
  induction h generalizing a with
  | nil => exact ⟨a, [], hR, .nil, .nil⟩
  | cons hs _ ih =>
    obtain ⟨b, hb, hab⟩ := step hR hs
    obtain ⟨c, l', hc, hl', hall⟩ := ih hb
    exact ⟨c, a :: l', hc, .cons hab hl', .cons hR hall⟩

/-- The states of a run of a machine form a path of as many steps. -/
theorem path_of_reachesIn {step : σ → Outcome σ ρ} {n : Nat} {s t : σ}
    (h : ReachesIn step n s t) :
    ∃ l, l.length = n ∧ Path (fun s t => step s = .next t) l s t := by
  induction n generalizing s with
  | zero => cases h; exact ⟨[], rfl, .nil⟩
  | succ n ih =>
    unfold ReachesIn at h
    cases hs : step s with
    | next u =>
      rw [run_next hs] at h
      obtain ⟨l, hlen, hl⟩ := ih h
      exact ⟨s :: l, congrArg Nat.succ hlen, .cons hs hl⟩
    | done r => rw [run_done hs] at h; cases h

theorem reachesIn_of_path {step : σ → Outcome σ ρ} {l : List σ} {s t : σ}
    (h : Path (fun s t => step s = .next t) l s t) : ReachesIn step l.length s t := by
  induction h with
  | nil => rfl
  | cons hs _ ih => exact (run_next hs _).trans ih

end Paths

section Segments
variable {step : σ → Outcome σ ρ} {Head : σ → Prop}

/-- The number of steps of a segment, and what lies strictly inside it. -/
theorem Segment.run {s : σ} {o : Outcome σ ρ} (h : Segment step Head s o) :
    ∃ k, Machine.run step (k + 1) s = o ∧
      ∀ j, 0 < j → j ≤ k → ∃ t, Machine.run step j s = .next t ∧ ¬ Head t := by
  induction h with
  | @last s o hs =>
    refine ⟨0, ?_, fun j h1 h2 => absurd h1 (by omega)⟩
    cases o with
    | next t => exact run_next hs 0
    | done r => exact run_done hs 0
  | @cons s t o hs hn _ ih =>
    obtain ⟨k, hk, hin⟩ := ih
    refine ⟨k + 1, (run_next hs _).trans hk, fun j h1 h2 => ?_⟩
    obtain ⟨i, rfl⟩ : ∃ i, j = i + 1 := ⟨j - 1, by omega⟩
    rcases Nat.eq_zero_or_pos i with rfl | hi
    · exact ⟨t, run_next hs 0, hn⟩
    · obtain ⟨u, hu, hnu⟩ := hin i hi (by omega)
      exact ⟨u, (run_next hs i).trans hu, hnu⟩

theorem Segment.reaches {s t : σ} (h : Segment step Head s (.next t)) : Reaches step s t := by
  obtain ⟨k, hk, _⟩ := h.run
  exact ⟨k + 1, hk⟩

theorem Segment.ends {s : σ} {r : ρ} (h : Segment step Head s (.done r)) : Ends step s r := by
  obtain ⟨k, hk, _⟩ := h.run
  exact ⟨k + 1, hk⟩

theorem Between.reaches {c c' : σ} (h : Between step Head c c') : Reaches step c c' :=
  h.1.reaches

theorem path_reaches {l : List σ} {c c' : σ} (h : Path (Between step Head) l c c') :
    Reaches step c c' := by
  induction h with
  | nil => exact reaches_refl _
  | cons hs _ ih => exact reaches_trans hs.reaches ih

/-- `o` is a result or a head state. -/
def AtHead (Head : σ → Prop) : Outcome σ ρ → Prop
  | .next s => Head s
  | .done _ => True

/-- Two segments from one state to the next head are the same. -/
theorem Segment.unique {s : σ} {o o' : Outcome σ ρ} (h : Segment step Head s o)
    (ho : AtHead Head o) (h' : Segment step Head s o') (ho' : AtHead Head o') : o = o' := by
  induction h with
  | last hs =>
    cases h' with
    | last hs' => exact hs.symm.trans hs'
    | cons hs' hn _ =>
      cases hs.symm.trans hs'
      exact absurd ho hn
  | cons hs hn _ ih =>
    cases h' with
    | last hs' =>
      cases hs.symm.trans hs'
      exact absurd ho' hn
    | cons hs' _ hrest =>
      cases hs.symm.trans hs'
      exact ih ho hrest

/-- Between two head states of one run lie whole segments. -/
theorem path_of_reaches {c c' : σ} (h : Reaches step c c') (hh : Head c') :
    ∃ l, Path (Between step Head) l c c' := by
  obtain ⟨n, hn⟩ := h
  induction n generalizing c with
  | zero => cases hn; exact ⟨[], .nil⟩
  | succ n ih =>
    unfold ReachesIn at hn
    cases hs : step c with
    | done r => rw [run_done hs] at hn; cases hn
    | next t =>
      rw [run_next hs] at hn
      obtain ⟨l, hl⟩ := ih hn
      by_cases ht : Head t
      · exact ⟨c :: l, .cons ⟨.last hs, ht⟩ hl⟩
      · -- `t` is strictly inside the first segment
        cases hl with
        | nil => exact absurd hh ht
        | cons hseg hrest => exact ⟨_, .cons ⟨.cons hs ht hseg.1, hseg.2⟩ hrest⟩

end Segments

/-! ## 3. Simulation -/

/-- One step of the abstract machine `astep` is one segment of the concrete
machine `cstep`. `R` relates head states of the concrete machine to states of
the abstract one, `Q` their results. -/
structure Simulation (cstep : σ → Outcome σ ρ) (astep : τ → Outcome τ υ)
    (Head : σ → Prop) (R : σ → τ → Prop) (Q : ρ → υ → Prop) : Prop where
  head : ∀ {c a}, R c a → Head c
  next : ∀ {c a a'}, R c a → astep a = .next a' →
    ∃ c', R c' a' ∧ Segment cstep Head c (.next c')
  done : ∀ {c a r'}, R c a → astep a = .done r' →
    ∃ r, Q r r' ∧ Segment cstep Head c (.done r)

namespace Simulation
variable {cstep : σ → Outcome σ ρ} {astep : τ → Outcome τ υ} {Head : σ → Prop}
  {R : σ → τ → Prop} {Q : ρ → υ → Prop}

/-- An abstract step is matched by a segment. -/
theorem forward (sim : Simulation cstep astep Head R Q) {c : σ} {a a' : τ} (hR : R c a)
    (h : astep a = .next a') : ∃ c', R c' a' ∧ Between cstep Head c c' := by
  obtain ⟨c', hR', hseg⟩ := sim.next hR h
  exact ⟨c', hR', hseg, sim.head hR'⟩

/-- A segment to a head is matched by an abstract step. -/
theorem backward (sim : Simulation cstep astep Head R Q) {c c' : σ} {a : τ} (hR : R c a)
    (h : Between cstep Head c c') : ∃ a', R c' a' ∧ astep a = .next a' := by
  cases ha : astep a with
  | next a' =>
    obtain ⟨d, hRd, hseg⟩ := sim.next hR ha
    cases hseg.unique (sim.head hRd) h.1 h.2
    exact ⟨a', hRd, rfl⟩
  | done r' =>
    obtain ⟨r, _, hseg⟩ := sim.done hR ha
    cases hseg.unique trivial h.1 h.2

/-- A segment to a result is matched by the end of the abstract machine. -/
theorem backward_done (sim : Simulation cstep astep Head R Q) {c : σ} {a : τ} {r : ρ}
    (hR : R c a) (h : Segment cstep Head c (.done r)) : ∃ r', Q r r' ∧ astep a = .done r' := by
  cases ha : astep a with
  | next a' =>
    obtain ⟨d, hRd, hseg⟩ := sim.next hR ha
    cases hseg.unique (sim.head hRd) h trivial
  | done r' =>
    obtain ⟨r₁, hQ, hseg⟩ := sim.done hR ha
    cases hseg.unique trivial h trivial
    exact ⟨r', hQ, rfl⟩

/-- When the abstract machine ends, so does the concrete one. -/
theorem ends (sim : Simulation cstep astep Head R Q) {c : σ} {a : τ} {r' : υ}
    (hR : R c a) (h : Ends astep a r') : ∃ r, Q r r' ∧ Ends cstep c r := by
  obtain ⟨n, hn⟩ := h
  obtain ⟨m, b, _, hb, hd⟩ := endsIn_cases hn
  obtain ⟨l, _, hl⟩ := path_of_reachesIn hb
  obtain ⟨d, _, hRd, hpath, _⟩ := hl.simulate (fun hR h => sim.forward hR h) hR
  obtain ⟨r, hQ, hseg⟩ := sim.done hRd hd
  exact ⟨r, hQ, ends_of_reaches (path_reaches hpath) hseg.ends⟩

/-- When the concrete machine ends, so does the abstract one. The induction is
on the number of concrete steps: a segment takes at least one. -/
theorem ends_reflect (sim : Simulation cstep astep Head R Q) {c : σ} {a : τ} {r : ρ}
    (hR : R c a) (h : Ends cstep c r) : ∃ r', Q r r' ∧ Ends astep a r' := by
  obtain ⟨n, hn⟩ := h
  induction n using Nat.strong_induction_on generalizing c a with
  | _ n ih =>
    cases ha : astep a with
    | done r' =>
      obtain ⟨r₁, hQ, hseg⟩ := sim.done hR ha
      cases ends_unique hseg.ends ⟨n, hn⟩
      exact ⟨r', hQ, ends_of_done ha⟩
    | next a' =>
      obtain ⟨c', hR', hseg⟩ := sim.next hR ha
      obtain ⟨k, hk, _⟩ := hseg.run
      have hlt : k + 1 < n := by
        by_contra hge
        have e := run_add_done hn (k + 1 - n)
        rw [Nat.add_sub_cancel' (by omega), hk] at e
        cases e
      have hrest : EndsIn cstep (n - (k + 1)) c' r := by
        have e := run_add hk (n - (k + 1))
        rw [Nat.add_sub_cancel' (by omega)] at e
        exact e.symm.trans hn
      obtain ⟨r', hQ, hends⟩ := ih _ (by omega) hR' hrest
      exact ⟨r', hQ, ends_of_reaches (reaches_of_next ha) hends⟩

/-- The two machines end together, with related results. -/
theorem ends_iff (sim : Simulation cstep astep Head R Q) {c : σ} {a : τ} (hR : R c a) :
    (∃ r, Ends cstep c r) ↔ ∃ r', Ends astep a r' := by
  constructor
  · rintro ⟨r, h⟩
    obtain ⟨r', _, h'⟩ := sim.ends_reflect hR h
    exact ⟨r', h'⟩
  · rintro ⟨r', h⟩
    obtain ⟨r, _, h'⟩ := sim.ends hR h
    exact ⟨r, h'⟩

end Simulation

/-! ## 4. Lock step -/

/-- Two outcomes are related: both machines go on in states that `R` relates, or both end with
results that `Q` relates. -/
inductive Outcome.Related (R : σ → τ → Prop) (Q : ρ → υ → Prop) : Outcome σ ρ → Outcome τ υ → Prop
  | next {c : σ} {a : τ} : R c a → Related R Q (.next c) (.next a)
  | done {r : ρ} {r' : υ} : Q r r' → Related R Q (.done r) (.done r')

/-- From related states two machines make related steps. -/
def LockStep (cstep : σ → Outcome σ ρ) (astep : τ → Outcome τ υ) (R : σ → τ → Prop)
    (Q : ρ → υ → Prop) : Prop :=
  ∀ c a, R c a → Outcome.Related R Q (cstep c) (astep a)

namespace LockStep
variable {φ ψ : Type*} {cstep : σ → Outcome σ ρ} {astep : τ → Outcome τ υ} {bstep : φ → Outcome φ ψ}
  {R : σ → τ → Prop} {Q : ρ → υ → Prop} {R' : τ → φ → Prop} {Q' : υ → ψ → Prop} {c : σ} {a : τ}
  {n : Nat}

/-- Runs of the same length have related outcomes. -/
theorem run (h : LockStep cstep astep R Q) (hR : R c a) (n : Nat) :
    Outcome.Related R Q (run cstep n c) (run astep n a) := by
  induction n generalizing c a with
  | zero => exact .next hR
  | succ n ih =>
    have hstep := h c a hR
    generalize hc : cstep c = o at hstep
    generalize ha : astep a = o' at hstep
    cases hstep with
    | next hR' =>
      rw [run_next hc, run_next ha]
      exact ih hR'
    | done hQ =>
      rw [run_done hc, run_done ha]
      exact .done hQ

theorem imp {Q₁ : ρ → υ → Prop} (h : LockStep cstep astep R Q) (hQ : ∀ r r', Q r r' → Q₁ r r') :
    LockStep cstep astep R Q₁ := by
  intro c a hR
  have hstep := h c a hR
  generalize cstep c = o at hstep
  generalize astep a = o' at hstep
  cases hstep with
  | next hR' => exact .next hR'
  | done hQ' => exact .done (hQ _ _ hQ')

theorem comp (h : LockStep cstep astep R Q) (h' : LockStep astep bstep R' Q') :
    LockStep cstep bstep (fun c b => ∃ a, R c a ∧ R' a b) fun r t => ∃ u, Q r u ∧ Q' u t := by
  rintro c b ⟨a, hR, hR'⟩
  have hstep := h c a hR
  have hstep' := h' a b hR'
  generalize cstep c = o at hstep
  generalize astep a = o' at hstep hstep'
  generalize bstep b = o'' at hstep'
  cases hstep with
  | next hR =>
    cases hstep' with
    | next hR' => exact .next ⟨_, hR, hR'⟩
  | done hQ =>
    cases hstep' with
    | done hQ' => exact .done ⟨_, hQ, hQ'⟩

theorem reachesIn (h : LockStep cstep astep R Q) (hR : R c a) {a' : τ}
    (ha : ReachesIn astep n a a') : ∃ c', R c' a' ∧ ReachesIn cstep n c c' := by
  have hrun := h.run hR n
  generalize hc : Machine.run cstep n c = o at hrun
  rw [show Machine.run astep n a = .next a' from ha] at hrun
  cases hrun with
  | next hR' => exact ⟨_, hR', hc⟩

theorem reachesIn_reflect (h : LockStep cstep astep R Q) (hR : R c a) {c' : σ}
    (hc : ReachesIn cstep n c c') : ∃ a', R c' a' ∧ ReachesIn astep n a a' := by
  have hrun := h.run hR n
  generalize ha : Machine.run astep n a = o at hrun
  rw [show Machine.run cstep n c = .next c' from hc] at hrun
  cases hrun with
  | next hR' => exact ⟨_, hR', ha⟩

theorem ends (h : LockStep cstep astep R Q) (hR : R c a) {r' : υ} (ha : Ends astep a r') :
    ∃ r, Q r r' ∧ Ends cstep c r := by
  obtain ⟨n, ha⟩ := ha
  have hrun := h.run hR n
  generalize hc : Machine.run cstep n c = o at hrun
  rw [show Machine.run astep n a = .done r' from ha] at hrun
  cases hrun with
  | done hQ => exact ⟨_, hQ, n, hc⟩

theorem ends_reflect (h : LockStep cstep astep R Q) (hR : R c a) {r : ρ} (hc : Ends cstep c r) :
    ∃ r', Q r r' ∧ Ends astep a r' := by
  obtain ⟨n, hc⟩ := hc
  have hrun := h.run hR n
  generalize ha : Machine.run astep n a = o at hrun
  rw [show Machine.run cstep n c = .done r from hc] at hrun
  cases hrun with
  | done hQ => exact ⟨_, hQ, n, ha⟩

end LockStep

/-- From related states two machines make related steps, or the abstract one gives up: it ends with a
result that says nothing about the concrete one. -/
def LockStepUnless (GaveUp : υ → Prop) (cstep : σ → Outcome σ ρ) (astep : τ → Outcome τ υ)
    (R : σ → τ → Prop) (Q : ρ → υ → Prop) : Prop :=
  ∀ c a, R c a → (∃ r, astep a = .done r ∧ GaveUp r) ∨ Outcome.Related R Q (cstep c) (astep a)

namespace LockStepUnless
variable {cstep : σ → Outcome σ ρ} {astep : τ → Outcome τ υ} {R : σ → τ → Prop} {Q : ρ → υ → Prop}
  {GaveUp : υ → Prop} {c : σ} {a : τ} {n : Nat}

theorem run (h : LockStepUnless GaveUp cstep astep R Q) (hR : R c a) (n : Nat) :
    (∃ r, Machine.run astep n a = .done r ∧ GaveUp r) ∨
      Outcome.Related R Q (Machine.run cstep n c) (Machine.run astep n a) := by
  induction n generalizing c a with
  | zero => exact .inr (.next hR)
  | succ n ih =>
    rcases h c a hR with ⟨r, ha, hr⟩ | hstep
    · exact .inl ⟨r, run_done ha n, hr⟩
    · generalize hc : cstep c = o at hstep
      generalize ha : astep a = o' at hstep
      cases hstep with
      | next hR' =>
        rw [run_next hc, run_next ha]
        exact ih hR'
      | done hQ =>
        rw [run_done hc, run_done ha]
        exact .inr (.done hQ)

/-- While the abstract machine runs it has not given up. -/
theorem reachesIn (h : LockStepUnless GaveUp cstep astep R Q) (hR : R c a) {a' : τ}
    (ha : ReachesIn astep n a a') : ∃ c', R c' a' ∧ ReachesIn cstep n c c' := by
  rcases h.run hR n with ⟨r, hdone, _⟩ | hrun
  · cases (show Machine.run astep n a = .next a' from ha).symm.trans hdone
  · generalize hc : Machine.run cstep n c = o at hrun
    rw [show Machine.run astep n a = .next a' from ha] at hrun
    cases hrun with
    | next hR' => exact ⟨_, hR', hc⟩

theorem ends (h : LockStepUnless GaveUp cstep astep R Q) (hR : R c a) {r' : υ}
    (ha : Ends astep a r') (hlost : ¬ GaveUp r') : ∃ r, Q r r' ∧ Ends cstep c r := by
  obtain ⟨n, ha⟩ := ha
  have ha : Machine.run astep n a = .done r' := ha
  rcases h.run hR n with ⟨r, hdone, hr⟩ | hrun
  · cases ha.symm.trans hdone
    exact absurd hr hlost
  · generalize hc : Machine.run cstep n c = o at hrun
    rw [ha] at hrun
    cases hrun with
    | done hQ => exact ⟨_, hQ, n, hc⟩

theorem ends_reflect (h : LockStepUnless GaveUp cstep astep R Q) (hR : R c a) {r : ρ}
    (hc : Ends cstep c r) : ∃ r', Ends astep a r' ∧ (GaveUp r' ∨ Q r r') := by
  obtain ⟨n, hc⟩ := hc
  rcases h.run hR n with ⟨r', hdone, hr⟩ | hrun
  · exact ⟨r', ⟨n, hdone⟩, .inl hr⟩
  · generalize ha : Machine.run astep n a = o at hrun
    rw [show Machine.run cstep n c = .done r from hc] at hrun
    cases hrun with
    | done hQ => exact ⟨_, ⟨n, ha⟩, .inr hQ⟩

end LockStepUnless

end Machine
