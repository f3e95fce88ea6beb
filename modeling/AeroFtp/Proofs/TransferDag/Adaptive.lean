/-
What a shrink of the adaptive semaphore comes to.

Two things are said of every sequence of calls.  The free permits and those in flight
together are the live size and the deficit, so nothing is lost or made.  And while a
shrink is owed nothing is free, so a permit that comes back is absorbed exactly when
nobody is queued for it: `add_permits` hands it to the queue before `try_acquire` can
take it back.  Under load a decrease therefore waits for the queue to run dry.

The controller keeps the target of a class between its floor and a bound.  The bound is the
ceiling, and for a recovery window after congestion one below the target it was congested at.
-/
import AeroFtp.TransferDag.Adaptive

namespace AeroFtp.Dag

open List DynamicSemaphore FairSemaphore

variable {α : Type}

namespace DynamicSemaphore

theorem clamp_bounds {x lo hi : Nat} (h : lo ≤ hi) : lo ≤ clamp x lo hi ∧ clamp x lo hi ≤ hi := by
  unfold clamp
  split
  · omega
  · split <;> omega

theorem clamp_le {x lo hi : Nat} (h : lo ≤ x) : clamp x lo hi ≤ x := by
  unfold clamp
  split
  · omega
  · split <;> omega

/-! ### One call -/

theorem setLive_live (ds : DynamicSemaphore α) (target : Nat) :
    (ds.setLive target).1.live = clamp target 1 ds.hardCeiling := by
  unfold setLive
  dsimp only
  split
  · rfl
  · split
    · rfl
    · dsimp only
      omega

variable {ds : DynamicSemaphore α}

theorem dropPermit_of_deficit_zero (h : ds.deficit = 0) :
    ds.dropPermit = ({ ds with sem := (ds.sem.addPermits 1).1 }, (ds.sem.addPermits 1).2) := by
  unfold dropPermit
  simp only [h, Nat.lt_irrefl, if_false]

theorem dropPermit_queued {a : α} {rest : List α}
    (h0 : ds.sem.available = 0) (h : ds.sem.waiters = a :: rest) :
    ds.dropPermit = ({ ds with sem := (ds.sem.addPermits 1).1 }, [a]) := by
  have hn : (ds.sem.addPermits 1).1.tryAcquire = none := by
    simp [addPermits, tryAcquire, h0, h]
  have hg : (ds.sem.addPermits 1).2 = [a] := by
    simp [addPermits, h]
  unfold dropPermit
  simp only [hn, hg, ite_self]

theorem dropPermit_uncontended (hd : 0 < ds.deficit)
    (h0 : ds.sem.available = 0) (h : ds.sem.waiters = []) :
    ds.dropPermit.1.deficit = ds.deficit - 1 ∧ ds.dropPermit.1.sem.available = 0 ∧
      ds.dropPermit.2 = [] := by
  have hs : (ds.sem.addPermits 1).1.tryAcquire = some ⟨0, [], fun _ => rfl⟩ := by
    simp [addPermits, tryAcquire, h0, h]
  have hg : (ds.sem.addPermits 1).2 = [] := by
    simp [addPermits, h]
  unfold dropPermit
  simp only [hs, hg, hd, if_true, and_self]

theorem dropPermit_live (ds : DynamicSemaphore α) :
    ds.dropPermit.1.live = ds.live ∧ ds.dropPermit.1.hardCeiling = ds.hardCeiling := by
  unfold dropPermit
  dsimp only
  split
  · split
    · split <;> exact ⟨rfl, rfl⟩
    · exact ⟨rfl, rfl⟩
  · exact ⟨rfl, rfl⟩

end DynamicSemaphore

/-! ### The balance -/

/-- What holds of a semaphore in use after any calls. -/
structure Balanced (s : InUse α) : Prop where
  balance : s.ds.sem.available + s.inFlight.length = s.ds.live + s.ds.deficit
  floor : 1 ≤ s.ds.live
  ceiling : s.ds.live + s.ds.deficit ≤ s.ds.hardCeiling
  /-- Nothing is free while a shrink is owed. -/
  owing : 0 < s.ds.deficit → s.ds.sem.available = 0

theorem Balanced.start (hardCeiling initial : Nat) :
    Balanced (InUse.start hardCeiling initial : InUse α) := by
  have hb := @clamp_bounds initial 1 (max hardCeiling 1) (by omega)
  refine ⟨rfl, hb.1, hb.2, ?_⟩
  intro h
  exact absurd h (Nat.lt_irrefl 0)

namespace Balanced

variable {s : InUse α}

theorem acquire (h : Balanced s) (a : α) :
    Balanced ⟨(s.ds.acquire a).1, s.inFlight ++ (s.ds.acquire a).2⟩ := by
  have hacq := s.ds.sem.acquire_balance a
  refine ⟨?_, h.floor, h.ceiling, ?_⟩
  · have hbal := h.balance
    simp only [DynamicSemaphore.acquire, length_append]
    omega
  · intro hd
    have hz := h.owing hd
    simp only [DynamicSemaphore.acquire]
    omega

theorem setLive (h : Balanced s) (target : Nat) :
    Balanced ⟨(s.ds.setLive target).1, s.inFlight ++ (s.ds.setLive target).2⟩ := by
  obtain ⟨hbal, hfloor, hc, ho⟩ := h
  have hbounds := @clamp_bounds target 1 s.ds.hardCeiling (by omega)
  unfold DynamicSemaphore.setLive
  generalize clamp target 1 s.ds.hardCeiling = t at hbounds
  dsimp only
  split
  next hg =>
    -- Permits are added only once the whole deficit is paid.
    have hadd := s.ds.sem.addPermits_balance (t - s.ds.live - min (t - s.ds.live) s.ds.deficit)
    split
    next hn =>
      refine ⟨?_, hbounds.1, ?_, ?_⟩
      · rw [length_append]
        dsimp only
        omega
      · dsimp only
        omega
      · intro hd
        dsimp only at hd
        omega
    next hn =>
      refine ⟨?_, hbounds.1, ?_, ?_⟩
      · rw [append_nil]
        dsimp only
        omega
      · dsimp only
        omega
      · intro hd
        exact ho (by omega)
  next =>
    split
    next hshrink =>
      have hforget := s.ds.sem.forgetUpTo_balance (s.ds.live - t)
      have hle := s.ds.sem.forgetUpTo_le (s.ds.live - t)
      split
      next hshort =>
        have hz := forgetUpTo_short hshort
        refine ⟨?_, hbounds.1, ?_, fun _ => hz⟩
        · rw [append_nil]
          dsimp only
          omega
        · dsimp only
          omega
      next hfull =>
        refine ⟨?_, hbounds.1, ?_, ?_⟩
        · rw [append_nil]
          dsimp only
          omega
        · dsimp only
          omega
        · intro hd
          have hz := ho hd
          omega
    next =>
      rw [append_nil]
      exact ⟨hbal, hfloor, hc, ho⟩

theorem drop [DecidableEq α] (h : Balanced s) {a : α} (ha : a ∈ s.inFlight) :
    Balanced ⟨s.ds.dropPermit.1, s.inFlight.erase a ++ s.ds.dropPermit.2⟩ := by
  obtain ⟨hbal, hf, hc, ho⟩ := h
  have hlen := length_erase_of_mem ha
  have hpos := length_pos_of_mem ha
  have hlive := s.ds.dropPermit_live
  rcases Nat.eq_zero_or_pos s.ds.deficit with hd | hd
  · have hadd := s.ds.sem.addPermits_balance 1
    rw [dropPermit_of_deficit_zero hd]
    refine ⟨?_, hf, hc, ?_⟩
    · rw [length_append]
      dsimp only
      omega
    · intro hd'
      dsimp only at hd'
      omega
  · have h0 := ho hd
    cases hw : s.ds.sem.waiters with
    | nil =>
      obtain ⟨hdef, havail, hg⟩ := dropPermit_uncontended hd h0 hw
      refine ⟨?_, by rw [hlive.1]; exact hf, ?_, fun _ => havail⟩
      · rw [hg, append_nil]
        dsimp only
        omega
      · dsimp only
        omega
    | cons b rest =>
      have hadd := s.ds.sem.addPermits_balance 1
      rw [dropPermit_queued h0 hw]
      have hg : (s.ds.sem.addPermits 1).2 = [b] := by
        simp [addPermits, hw]
      rw [hg, length_singleton] at hadd
      refine ⟨?_, hf, hc, ?_⟩
      · rw [length_append, length_singleton]
        dsimp only
        omega
      · intro _
        dsimp only
        omega

end Balanced

namespace InUse

variable [DecidableEq α] {s t : InUse α} {c : Call α}

theorem step_cases (h : s.step c = some t) :
    (∃ a, c = .acquire a ∧ t = ⟨(s.ds.acquire a).1, s.inFlight ++ (s.ds.acquire a).2⟩) ∨
    (∃ n, c = .setLive n ∧ t = ⟨(s.ds.setLive n).1, s.inFlight ++ (s.ds.setLive n).2⟩) ∨
    (∃ a, c = .drop a ∧ a ∈ s.inFlight ∧
      t = ⟨s.ds.dropPermit.1, s.inFlight.erase a ++ s.ds.dropPermit.2⟩) := by
  cases c with
  | acquire a => exact .inl ⟨a, rfl, (Option.some.inj h).symm⟩
  | setLive n => exact .inr (.inl ⟨n, rfl, (Option.some.inj h).symm⟩)
  | drop a =>
    rw [step] at h
    split at h
    next ha => exact .inr (.inr ⟨a, rfl, ha, (Option.some.inj h).symm⟩)
    next => cases h

theorem step_balanced (s : InUse α) (c : Call α) (t : InUse α) (h : s.step c = some t)
    (hs : Balanced s) : Balanced t := by
  obtain ⟨a, rfl, rfl⟩ | ⟨n, rfl, rfl⟩ | ⟨a, rfl, ha, rfl⟩ := step_cases h
  · exact hs.acquire a
  · exact hs.setLive n
  · exact hs.drop ha

variable {calls : List (Call α)}

theorem run_balanced {hardCeiling initial : Nat}
    (h : (start hardCeiling initial).run calls = some t) : Balanced t :=
  Runs.run_invariant step_balanced h (Balanced.start hardCeiling initial)

theorem drop_lowers_iff (hs : Balanced s) {a : α} (h : s.step (.drop a) = some t)
    (hd : 0 < s.ds.pendingShrink) :
    t.ds.pendingShrink = s.ds.pendingShrink - 1 ↔ s.ds.sem.waiters = [] := by
  obtain ⟨_, hc, _⟩ | ⟨_, hc, _⟩ | ⟨b, _, _, rfl⟩ := step_cases h
  · cases hc
  · cases hc
  have h0 := hs.owing hd
  cases hw : s.ds.sem.waiters with
  | nil =>
    have hdef := (dropPermit_uncontended hd h0 hw).1
    exact ⟨fun _ => rfl, fun _ => hdef⟩
  | cons b rest =>
    rw [dropPermit_queued h0 hw]
    refine ⟨fun heq => ?_, fun hnil => by cases hnil⟩
    have : s.ds.pendingShrink = s.ds.pendingShrink - 1 := heq
    omega

/-! ### After a shrink -/

/-- Whether a call drops a permit. -/
def isDrop : Call α → Bool
  | .drop _ => true
  | _ => false

/-- Whether a call moves the live size. -/
def isSetLive : Call α → Bool
  | .setLive _ => true
  | _ => false

/-- Every drop made while a shrink is owed finds nobody queued. -/
def DropsUncontended (s : InUse α) (calls : List (Call α)) : Prop :=
  ∀ before a after m, calls = before ++ .drop a :: after → s.run before = some m →
    0 < m.ds.pendingShrink → m.ds.sem.waiters = []

theorem DropsUncontended.tail
    (h : DropsUncontended s (c :: calls)) (hs : s.step c = some t) : DropsUncontended t calls := by
  intro before a after m hc hrun
  exact h (c :: before) a after m (by rw [hc, cons_append]) (Runs.run_cons.mpr ⟨t, hs, hrun⟩)

/-- One call that leaves the live size alone: the deficit does not grow, and a drop
that finds nobody queued lowers it. -/
theorem step_deficit_le (hs : Balanced s) (h : s.step c = some t) (hset : isSetLive c = false)
    (hdrop : isDrop c = true → 0 < s.ds.pendingShrink → s.ds.sem.waiters = []) :
    t.ds.live = s.ds.live ∧
      t.ds.pendingShrink + (if isDrop c = true then 1 else 0) ≤ max s.ds.pendingShrink
        (if isDrop c = true then 1 else 0) := by
  obtain ⟨a, rfl, rfl⟩ | ⟨n, rfl, rfl⟩ | ⟨a, rfl, ha, rfl⟩ := step_cases h
  · exact ⟨rfl, Nat.le_max_left _ _⟩
  · cases hset
  refine ⟨s.ds.dropPermit_live.1, ?_⟩
  rcases Nat.eq_zero_or_pos s.ds.deficit with hd | hd
  · rw [dropPermit_of_deficit_zero hd]
    simp only [pendingShrink]
    omega
  · have hlow := (drop_lowers_iff hs h hd).mpr (hdrop rfl hd)
    simp only [isDrop, if_true]
    dsimp only at hlow
    omega

theorem run_deficit_le (hs : Balanced s) (h : s.run calls = some t)
    (hset : ∀ c ∈ calls, isSetLive c = false) (hun : DropsUncontended s calls) :
    t.ds.live = s.ds.live ∧ t.ds.pendingShrink ≤ s.ds.pendingShrink - calls.countP isDrop := by
  induction calls generalizing s with
  | nil =>
    cases h
    exact ⟨rfl, Nat.le_refl _⟩
  | cons c calls ih =>
    obtain ⟨m, hm, hr⟩ := Runs.run_cons.mp h
    obtain ⟨hlive, hle⟩ := step_deficit_le hs hm (hset c (mem_cons_self ..)) (by
      intro hc hd
      cases c with
      | drop a => exact hun [] a calls s rfl rfl hd
      | acquire a => cases hc
      | setLive n => cases hc)
    obtain ⟨hlive', hle'⟩ := ih (step_balanced s c m hm hs) hr
      (fun c hc => hset c (mem_cons_of_mem _ hc)) (hun.tail hm)
    rw [countP_cons]
    omega

/-- **A decrease takes effect where nobody is queued.**  The balance holds after any
calls.  A drop that finds a shrink owed absorbs it exactly when nobody is queued.  And
after `setLive target`, if every drop that finds a shrink owed is such a drop, at most
`target` permits are in flight once as many were dropped as were owed. -/
theorem setLive_takes_effect (hardCeiling initial : Nat) (calls : List (Call α)) (s : InUse α)
    (hrun : (start hardCeiling initial).run calls = some s) :
    s.ds.sem.available + s.inFlight.length = s.ds.live + s.ds.pendingShrink ∧
    (∀ a t, s.step (.drop a) = some t → 0 < s.ds.pendingShrink →
      (t.ds.pendingShrink = s.ds.pendingShrink - 1 ↔ s.ds.sem.waiters = [])) ∧
    (∀ target later m t, 1 ≤ target → s.step (.setLive target) = some m →
      m.run later = some t → (∀ c ∈ later, isSetLive c = false) → DropsUncontended m later →
      m.ds.pendingShrink ≤ later.countP isDrop → t.inFlight.length ≤ target) := by
  have hs := run_balanced hrun
  refine ⟨hs.balance, fun a t ht hd => drop_lowers_iff hs ht hd, ?_⟩
  intro target later m t htarget hset hlater hnone hun howed
  have hm := step_balanced s _ m hset hs
  have ht := Runs.run_invariant step_balanced hlater hm
  obtain ⟨hlive, hle⟩ := run_deficit_le hm hlater hnone hun
  have hmlive : m.ds.live ≤ target := by
    cases hset
    rw [setLive_live]
    exact clamp_le htarget
  have hbal := ht.balance
  have hzero : t.ds.deficit = 0 := by
    have : t.ds.deficit = t.ds.pendingShrink := rfl
    omega
  omega

/-- The calls of a shrink from four permits to one with three of them out, and no queue. -/
theorem setLive_takes_effect_uncontended :
    let s : InUse Nat := ⟨⟨⟨1, [], fun _ => rfl⟩, 4, 4, 0⟩, [1, 2, 3]⟩
    let m : InUse Nat := ⟨⟨⟨0, [], fun _ => rfl⟩, 4, 1, 2⟩, [1, 2, 3]⟩
    let t : InUse Nat := ⟨⟨⟨0, [], fun _ => rfl⟩, 4, 1, 0⟩, [3]⟩
    (start 4 4).run [.acquire 1, .acquire 2, .acquire 3] = some s ∧
      s.step (.setLive 1) = some m ∧ m.run [.drop 1, .drop 2] = some t ∧ t.inFlight.length ≤ 1 := by
  intro s m t
  have hs : (start 4 4).run [.acquire 1, .acquire 2, .acquire 3] = some s := by decide
  have hm : s.step (.setLive 1) = some m := by decide
  have ht : m.run [.drop 1, .drop 2] = some t := by decide
  refine ⟨hs, hm, ht, ?_⟩
  refine (setLive_takes_effect 4 4 _ s hs).2.2 1 [.drop 1, .drop 2] m t (by decide) hm ht
    (by decide) ?_ (by decide)
  intro before a after m' hcalls hrun _
  rcases before with _ | ⟨c, _ | ⟨c', rest⟩⟩
  · cases hrun
    rfl
  · cases hcalls
    cases hrun
    rfl
  · simp at hcalls

/-- Two permits out, a third acquirer queued, a shrink to one: the permit that is
dropped goes to the queue, the shrink is still owed, and two permits stay in flight. -/
theorem setLive_without_effect :
    let calls : List (Call Nat) := [.acquire 1, .acquire 2, .acquire 3, .setLive 1]
    (((start 2 2).run calls).map fun s => (s.ds.pendingShrink, s.inFlight)) = some (1, [1, 2]) ∧
    (((start 2 2).run (calls ++ [.drop 1])).map fun s => (s.ds.pendingShrink, s.inFlight))
      = some (1, [2, 3]) := by
  decide

end InUse

/-! ### The budget of a class -/

namespace ClassState

/-- Between the floor `m` and the bound `b`, which is the ceiling `c`, or less while the class
has been congested at `t₀` or later; with a semaphore that follows the target. -/
structure Within (c m b t₀ : Nat) (st : ClassState α) : Prop where
  balanced : Balanced st.sem
  live : st.sem.ds.live = st.target
  hard : st.sem.ds.hardCeiling = c
  ceiling : st.ceiling = c
  floor : st.minTarget = m
  pos : 1 ≤ m
  lo : m ≤ st.target
  hi : st.target ≤ b
  below : b ≤ c
  cap : st.regrowthCap ≤ b
  held : b = c ∨ ∃ t, st.lastCongestion = some t ∧ t₀ ≤ t

variable {config : AimdConfig} {now c m b t₀ : Nat} {st st' : ClassState α}

theorem within_setTarget (h : Within c m b t₀ st) {t : Nat} (hlo : m ≤ t) (hhi : t ≤ b) :
    Within c m b t₀ (st.setTarget t) := by
  have hpos := h.pos
  have hbelow := h.below
  refine { h with balanced := h.balanced.setLive t, live := ?_, hard := ?_, lo := hlo, hi := hhi }
  · rw [setTarget, setLive_live, h.hard, clamp, if_neg (by omega), if_neg (by omega)]
  · show (st.sem.ds.setLive t).1.hardCeiling = c
    unfold DynamicSemaphore.setLive
    dsimp only
    split
    · exact h.hard
    · split <;> exact h.hard

theorem within_relax (h : Within c m b t₀ st)
    (hnow : b = c ∨ t₀ ≤ now ∧ now < t₀ + config.recoveryWindow) :
    Within c m b t₀ (st.relax config now) := by
  unfold relax
  split
  case isFalse => exact h
  case isTrue hquiet =>
    have hb : b = c := by
      rcases h.held with hb | ⟨t, ht, hle⟩
      · exact hb
      · rw [ht, Option.any_some, decide_eq_true_eq] at hquiet
        omega
    exact { h with cap := Nat.le_of_eq (h.ceiling.trans hb.symm), held := .inl hb }

theorem within_grow (h : Within c m b t₀ st) : Within c m b t₀ (st.grow config now) := by
  have hlo := h.lo
  have hcap := h.cap
  unfold grow
  dsimp only
  split
  · exact h
  · split
    · exact { h with }
    · split
      · exact { within_setTarget h (by omega) (by omega) with }
      · exact h

/-- Congestion may lower the bound. -/
theorem within_congest (h : Within c m b t₀ st) {b' t₁ deadline : Nat} (hb : b' ≤ c) (hm : m ≤ b')
    (hhalf : st.target / 2 ≤ b') (hcap : min (max (st.target - 1) 1) st.regrowthCap ≤ b')
    (hheld : b' = c ∨ t₁ ≤ now) : Within c m b' t₁ (st.congest now deadline) := by
  have hceiling := h.ceiling
  have hfloor := h.floor
  have hpos := h.pos
  have hlo := h.lo
  have hhi := h.hi
  have hbelow := h.below
  exact { within_setTarget h (t := max (st.target / 2) (min (max st.minTarget 1) st.ceiling))
      (by omega) (by omega) with
    hi := by show max (st.target / 2) (min _ _) ≤ b'; omega
    below := hb
    cap := hcap
    held := hheld.imp id fun ht => ⟨now, rfl, ht⟩ }

theorem onCongestionWithHint_cases {hint : Option Nat}
    (hs : st.onCongestionWithHint config now hint = some st') :
    config.disabled ∧ st' = st ∨ ∃ deadline, st' = st.congest now deadline := by
  unfold onCongestionWithHint at hs
  dsimp only at hs
  split at hs
  case isTrue hd => exact .inl ⟨hd, (Option.some.inj hs).symm⟩
  case isFalse =>
    split at hs
    · cases hs
    · exact .inr ⟨_, (Option.some.inj hs).symm⟩

theorem within_step [DecidableEq α] {e : Event α}
    (he : b = c ∨ ∀ now ∈ e.time, t₀ ≤ now ∧ now < t₀ + config.recoveryWindow)
    (hs : st.turn config e = some st') (h : Within c m b t₀ st) : Within c m b t₀ st' := by
  have hnow : ∀ now ∈ e.time, b = c ∨ t₀ ≤ now ∧ now < t₀ + config.recoveryWindow :=
    fun now ht => he.imp id (· now ht)
  cases e with
  | congestion now hint =>
    cases hs
    cases hc : st.onCongestionWithHint config now hint with
    | none => exact h
    | some st' =>
      rcases onCongestionWithHint_cases hc with ⟨-, rfl⟩ | ⟨deadline, rfl⟩
      · exact h
      · have hhi := h.hi
        have hcap := h.cap
        exact within_congest h h.below (Nat.le_trans h.lo hhi) (by omega) (by omega)
          ((hnow now rfl).imp id (·.1))
  | healthy now =>
    cases hs
    have hrelax := within_relax h (hnow now rfl)
    unfold noteHealthy
    dsimp only
    split
    · exact h
    · split
      · exact hrelax
      · exact within_grow { hrelax with }
  | acquire a =>
    cases hs
    exact { h with balanced := h.balanced.acquire a }
  | drop a =>
    obtain ⟨sem, hd, rfl⟩ := Option.map_eq_some_iff.mp hs
    have hb := InUse.step_balanced _ _ _ hd h.balanced
    obtain ⟨hl, hh⟩ := dropPermit_live st.sem.ds
    simp only [InUse.step] at hd
    split at hd
    · cases hd
      exact { h with balanced := hb, live := hl.trans h.live, hard := hh.trans h.hard }
    · cases hd

theorem within_start (ceiling : Nat) (overrides : AimdClassWindow) (seed : Option Nat) :
    ∃ c m, c ≤ max ceiling 1 ∧ (∀ cap, overrides.max = some cap → c ≤ max cap 1) ∧
      Within c m c 0 (withOverridesSeeded ceiling overrides seed : ClassState α) := by
  obtain ⟨floor, top, step⟩ := overrides
  obtain ⟨c, hc⟩ : ∃ c, c = top.elim (max ceiling 1) fun cap => min (max ceiling 1)
      (max cap 1) := ⟨_, rfl⟩
  have htop : 1 ≤ c ∧ c ≤ max ceiling 1 ∧ ∀ cap, top = some cap → c ≤ max cap 1 := by
    cases top with
    | none => exact ⟨by rw [hc]; exact Nat.le_max_right .., Nat.le_of_eq hc, by simp⟩
    | some cap =>
      have hc : c = min (max ceiling 1) (max cap 1) := hc
      refine ⟨by omega, by omega, ?_⟩
      rintro _ ⟨⟩
      omega
  have hmin := clamp_bounds (x := floor.getD 1) htop.1
  have hstart : clamp (floor.getD 1) 1 c ≤ seed.elim c (clamp · (clamp (floor.getD 1) 1 c) c) ∧
      seed.elim c (clamp · (clamp (floor.getD 1) 1 c) c) ≤ c := by
    cases seed with
    | none => exact ⟨hmin.2, Nat.le_refl c⟩
    | some cached => exact clamp_bounds hmin.2
  refine ⟨c, clamp (floor.getD 1) 1 c, htop.2.1, htop.2.2, ?_⟩
  unfold withOverridesSeeded
  dsimp only
  rw [← hc]
  exact {
    balanced := .start ..
    live := by
      show clamp _ 1 (max c 1) = _
      rw [Nat.max_eq_left htop.1, clamp, if_neg (by omega), if_neg (by omega)]
    hard := Nat.max_eq_left htop.1
    ceiling := rfl
    floor := rfl
    pos := hmin.1
    lo := hstart.1
    hi := hstart.2
    below := Nat.le_refl c
    cap := Nat.le_refl c
    held := .inl rfl }

section Runs

variable [DecidableEq α] (config : AimdConfig) (ceiling : Nat) (overrides : AimdClassWindow)
  (seed : Option Nat) (events : List (Event α)) {st : ClassState α}
  (hrun : run config ceiling overrides seed events = some st)

include hrun

theorem within_run : ∃ c m, c ≤ max ceiling 1 ∧ (∀ cap, overrides.max = some cap → c ≤ max cap 1) ∧
    Within c m c 0 st := by
  obtain ⟨c, m, hbudget, hcap, hstart⟩ := within_start ceiling overrides seed (α := α)
  exact ⟨c, m, hbudget, hcap, Runs.run_invariant (fun _ _ _ => within_step (.inl rfl)) hrun hstart⟩

/-- **A class never exceeds its budget.**  Whatever the feedback is and whenever it comes, no
more permits are out than the budget and the operator's cap allow, and the target is between
the floor and the ceiling, with the semaphore at it. -/
theorem inFlight_le_budget : st.sem.inFlight.length ≤ max ceiling 1 ∧
    (∀ cap, overrides.max = some cap → st.sem.inFlight.length ≤ max cap 1) ∧
    st.minTarget ≤ st.target ∧ st.target ≤ st.ceiling ∧ st.sem.ds.live = st.target := by
  obtain ⟨c, m, hbudget, hcap, hst⟩ := within_run config ceiling overrides seed events hrun
  have hall : st.sem.inFlight.length ≤ c := by
    have := hst.balanced.balance
    have := hst.balanced.ceiling
    have := hst.hard
    omega
  refine ⟨Nat.le_trans hall hbudget, fun cap h => Nat.le_trans hall (hcap cap h), ?_, ?_, hst.live⟩
  · exact hst.floor ▸ hst.lo
  · exact hst.ceiling ▸ hst.hi

/-- **The guard band.**  For a recovery window after congestion a class stays below the target
it was congested at, or at its floor, whatever feedback comes in it. -/
theorem target_le_guardBand (henabled : config.disabled = false) (t₀ : Nat) (hint : Option Nat)
    {st₁ st₂ : ClassState α} (hcongested : st.onCongestionWithHint config t₀ hint = some st₁)
    {later : List (Event α)} (hlater : Runs.run (turn config) st₁ later = some st₂)
    (htimes : ∀ e ∈ later, ∀ now ∈ e.time, t₀ ≤ now ∧ now < t₀ + config.recoveryWindow) :
    st₂.target ≤ max (st.target - 1) st.minTarget := by
  obtain ⟨c, m, -, -, hst⟩ := within_run config ceiling overrides seed events hrun
  have hpos := hst.pos
  have hlo := hst.lo
  have hhi := hst.hi
  rcases onCongestionWithHint_cases hcongested with ⟨hd, -⟩ | ⟨deadline, rfl⟩
  · rw [henabled] at hd
    cases hd
  · have hstart : Within c m (max (st.target - 1) m) t₀ (st.congest t₀ deadline) :=
      within_congest hst (by omega) (by omega) (by omega) (by omega) (.inr (Nat.le_refl t₀))
    rw [hst.floor]
    exact (Runs.run_invariant_of (fun _ _ _ he => within_step (.inr he)) htimes hlater hstart).hi

end Runs

theorem inFlight_le_budget_capped :
    let overrides : AimdClassWindow := ⟨none, some 2, none⟩
    ∃ st : ClassState Nat, run ⟨1, 1, 1, false⟩ 4 overrides none [.acquire 1, .congestion 0 none]
      = some st ∧ st.sem.inFlight.length ≤ 2 := by
  intro overrides
  obtain ⟨st, hrun⟩ : ∃ st : ClassState Nat,
    run ⟨1, 1, 1, false⟩ 4 overrides none [.acquire 1, .congestion 0 none] = some st := ⟨_, rfl⟩
  exact ⟨st, hrun, (inFlight_le_budget _ 4 overrides none _ hrun).2.1 2 rfl⟩

theorem target_le_guardBand_four :
    let config : AimdConfig := ⟨0, 0, 9, false⟩
    let st : ClassState Nat := withOverridesSeeded 4 ⟨none, none, some 8⟩ none
    (Runs.run (turn config) (st.congest 0 0) [.healthy 1, .healthy 2]).any (·.target ≤ 3) := by
  intro config st
  obtain ⟨st', hlater⟩ : ∃ st', Runs.run (turn config) (st.congest 0 0)
      [.healthy 1, .healthy 2] = some st' :=
    ⟨_, rfl⟩
  have := target_le_guardBand config 4 ⟨none, none, some 8⟩ none [] rfl rfl 0 none
    (show st.onCongestionWithHint config 0 none = _ from rfl) hlater (by decide)
  rw [hlater]
  exact decide_eq_true this

end ClassState

end AeroFtp.Dag
