/-
When a free slot of an endpoint can be left asleep.

A refused waiter sleeps until somebody calls `notify_waiters`, which a release and a dropped
waiter do.  An admission does not, and it takes one waiter of its class out of the counts:
with a slot still free, a background waiter that was refused in favour of foreground work
may from then on be admissible, with nobody to wake it.  That needs two slots and both
classes, and with fewer of either it cannot happen: everything else that moves the counts
either notifies or opens no door.
-/
import AeroFtp.TransferDag.Governor
import Mathlib.Data.List.Perm.Basic

namespace AeroFtp.Dag

open List EndpointWaiter

namespace EndpointState

variable {state admitted : EndpointState} {p q : TransferPriority}

/-! ### The counts -/

/-- Nobody has been bypassed while no background waiter is there. -/
def Fresh (state : EndpointState) : Prop :=
  state.backgroundWaiters = 0 → state.foregroundBypass = 0

theorem admitWaiter_cases (h : state.admitWaiter p = some admitted) :
    priorityAdmits state p = true ∧
      (p = .foreground ∧ admitted = ⟨state.available - 1, state.foregroundWaiters - 1,
        state.backgroundWaiters,
        if 0 < state.backgroundWaiters then state.foregroundBypass + 1 else 0⟩ ∨
      p = .background ∧ admitted = ⟨state.available - 1, state.foregroundWaiters,
        state.backgroundWaiters - 1, 0⟩) := by
  unfold admitWaiter at h
  by_cases hp : priorityAdmits state p
  · cases p with
    | foreground => exact ⟨hp, .inl ⟨rfl, by simpa [hp] using h.symm⟩⟩
    | background => exact ⟨hp, .inr ⟨rfl, by simpa [hp] using h.symm⟩⟩
  · simp [hp] at h

theorem admits_of_admitWaiter (h : state.admitWaiter p = some admitted) :
    priorityAdmits state p = true :=
  (admitWaiter_cases h).1

theorem not_admits_of_admitWaiter_none (h : state.admitWaiter p = none) :
    priorityAdmits state p = false := by
  unfold admitWaiter at h
  by_cases hp : priorityAdmits state p
  · cases p <;> simp [hp] at h
  · simpa using hp

theorem admits_foreground :
    priorityAdmits state .foreground = true ↔
      0 < state.available ∧ backgroundTurn state = false := by
  by_cases h0 : state.available = 0
  · simp [priorityAdmits, h0]
  · simp [priorityAdmits, h0, Nat.pos_of_ne_zero h0]

theorem admits_background : priorityAdmits state .background = true ↔
      0 < state.available ∧ (state.foregroundWaiters = 0 ∨ backgroundTurn state = true) := by
  by_cases h0 : state.available = 0
  · simp [priorityAdmits, h0]
  · simp [priorityAdmits, h0, Nat.pos_of_ne_zero h0]

theorem available_pos_of_admits (h : priorityAdmits state p = true) : 0 < state.available := by
  cases p with
  | foreground => exact (admits_foreground.mp h).1
  | background => exact (admits_background.mp h).1

theorem admitWaiter_available (h : state.admitWaiter p = some admitted) :
    admitted.available = state.available - 1 := by
  obtain ⟨-, ⟨-, rfl⟩ | ⟨-, rfl⟩⟩ := admitWaiter_cases h <;> rfl

theorem fresh_admitWaiter (h : state.admitWaiter p = some admitted) : Fresh admitted := by
  obtain ⟨-, ⟨-, rfl⟩ | ⟨-, rfl⟩⟩ := admitWaiter_cases h
  · intro hb
    exact if_neg (Nat.not_lt.mpr (Nat.le_of_eq hb))
  · exact fun _ => rfl

theorem fresh_register (h : Fresh state) : Fresh (state.register p) := by
  cases p with
  | foreground => exact h
  | background =>
    intro hb
    simp [register] at hb

theorem fresh_unregister : Fresh (state.unregister p) := by
  intro hb
  cases p <;> simp only [unregister] at hb ⊢ <;> split at hb <;> simp_all

theorem backgroundTurn_register (hf : Fresh state) :
    backgroundTurn (state.register p) = backgroundTurn state := by
  cases p with
  | foreground => rfl
  | background =>
    by_cases hb : state.backgroundWaiters = 0
    · simp [backgroundTurn, register, hf hb, maxForegroundBypass]
    · simp only [backgroundTurn, Nat.pos_of_ne_zero hb]
      rfl

theorem admits_of_register (hf : Fresh state) (h : priorityAdmits (state.register p) q = true) :
    priorityAdmits state q = true := by
  have ht := backgroundTurn_register (p := p) hf
  have hpos : 0 < state.available := by
    have := available_pos_of_admits h
    cases p <;> exact this
  cases q with
  | foreground =>
    rw [admits_foreground] at h ⊢
    exact ⟨hpos, ht ▸ h.2⟩
  | background =>
    rw [admits_background] at h ⊢
    refine ⟨hpos, h.2.imp (fun hw => ?_) (ht ▸ ·)⟩
    cases p with
    | foreground => cases hw
    | background => exact hw

/-- The other class has no waiter. -/
def Alone (state : EndpointState) : TransferPriority → Prop
  | .foreground => state.backgroundWaiters = 0
  | .background => state.foregroundWaiters = 0

theorem admits_of_alone (h : Alone state p) (hpos : 0 < state.available) :
    priorityAdmits state p = true := by
  cases p with
  | foreground =>
    have hb : state.backgroundWaiters = 0 := h
    exact admits_foreground.mpr ⟨hpos, by simp [backgroundTurn, hb]⟩
  | background => exact admits_background.mpr ⟨hpos, .inl h⟩

theorem alone_register (h : Alone state p) : Alone (state.register p) p := by
  cases p <;> exact h

theorem alone_admitWaiter (h : Alone state p) (ha : state.admitWaiter p = some admitted) :
    Alone admitted p := by
  obtain ⟨-, ⟨rfl, rfl⟩ | ⟨rfl, rfl⟩⟩ := admitWaiter_cases ha <;> exact h

theorem alone_unregister (h : Alone state p) : Alone (state.unregister p) p := by
  cases p <;> simp only [unregister] <;> split <;> exact h

/-- The count of a class. -/
def waiting (state : EndpointState) : TransferPriority → Nat
  | .foreground => state.foregroundWaiters
  | .background => state.backgroundWaiters

theorem waiting_register :
    (state.register p).waiting q = state.waiting q + if p = q then 1 else 0 := by
  cases p <;> cases q <;> rfl

theorem waiting_admitWaiter (h : state.admitWaiter p = some admitted) :
    admitted.waiting q = state.waiting q - if p = q then 1 else 0 := by
  obtain ⟨-, ⟨rfl, rfl⟩ | ⟨rfl, rfl⟩⟩ := admitWaiter_cases h <;> cases q <;> rfl

theorem waiting_unregister :
    (state.unregister p).waiting q = state.waiting q - if p = q then 1 else 0 := by
  cases p <;> cases q <;> simp only [unregister] <;> split <;> rfl

theorem available_unregister : (state.unregister p).available = state.available := by
  cases p <;> simp only [unregister] <;> split <;> rfl

theorem bypass_unregister (h : 0 < (state.unregister p).backgroundWaiters) :
    (state.unregister p).foregroundBypass = state.foregroundBypass := by
  cases p <;> simp only [unregister] at h ⊢ <;> split at h <;> simp_all

end EndpointState

namespace EndpointGovernor

open EndpointState

variable {g g' : EndpointGovernor} {e : GovernorEvent} {p : TransferPriority}

/-! ### One step -/

/-- All that a step can be. -/
inductive Move (g : EndpointGovernor) : GovernorEvent → EndpointGovernor → Prop
  | register (p : TransferPriority) : Move g (.register p) { g with
        state := g.state.register p
        waiters := g.waiters ++ [{ priority := p, await := .starting }] }
  | enter {i w admitted} (hw : g.waiters[i]? = some w)
      (ha : g.state.admitWaiter w.priority = some admitted) :
      Move g (.poll i)
        { g with state := admitted, waiters := g.waiters.eraseIdx i, leases := g.leases + 1 }
  | refuse {i w} (hw : g.waiters[i]? = some w) (ha : g.state.admitWaiter w.priority = none) :
      Move g (.poll i) { g with waiters := g.waiters.set i { w with await := .suspended false } }
  | release (hl : g.leases ≠ 0) : Move g .releaseOp
      { g with
        state := { g.state with available := min (g.state.available + 1) g.capacity }
        waiters := g.waiters.map EndpointWaiter.notify
        leases := g.leases - 1 }
  | drop {i w} (hw : g.waiters[i]? = some w) : Move g (.dropWaiter i)
      { g with
        state := g.state.unregister w.priority
        waiters := (g.waiters.eraseIdx i).map EndpointWaiter.notify }

theorem step_move (h : g.step e = some g') : Move g e g' := by
  cases e with
  | register p =>
    cases h
    exact .register p
  | poll i =>
    simp only [step] at h
    split at h
    · cases h
    · rename_i w hw
      split at h
      · cases h
      · split at h
        · rename_i admitted ha
          cases h
          exact .enter hw ha
        · rename_i ha
          cases h
          exact .refuse hw ha
  | releaseOp =>
    simp only [step] at h
    split at h
    · cases h
    · rename_i hl
      cases h
      exact .release hl
  | dropWaiter i =>
    simp only [step] at h
    split at h
    · cases h
    · rename_i w hw
      cases h
      exact .drop hw

/-- If a slot is free and a suspended waiter would be admitted, a wake-up for it is pending. -/
def NoSlotAsleep (g : EndpointGovernor) : Prop :=
  ∀ w ∈ g.waiters, ∀ woken, w.await = .suspended woken →
    0 < g.state.available → priorityAdmits g.state w.priority = true → woken = true

variable {waiters : List EndpointWaiter} {mix : TransferPriority → Bool} (capacity : Nat)

variable {w : EndpointWaiter}

theorem woken_of_notify {woken : Bool}
    (hw : w ∈ waiters.map notify) (ha : w.await = .suspended woken) : woken = true := by
  obtain ⟨w, -, rfl⟩ := mem_map.mp hw
  unfold notify at ha
  cases hawait : w.await with
  | starting => simp [hawait] at ha
  | suspended _ => simpa [hawait] using ha.symm

/-- **Only an admission can leave a slot asleep.**  Where it lets in nobody who was not
admissible before it, a step keeps every free slot awake. -/
theorem noSlotAsleep_step (h : g.step e = some g') (hf : Fresh g.state)
    (ho : ∀ p admitted, g.state.admitWaiter p = some admitted → ∀ w ∈ g.waiters,
      priorityAdmits admitted w.priority = true → priorityAdmits g.state w.priority = true)
    (hg : NoSlotAsleep g) : NoSlotAsleep g' := by
  cases step_move h with
  | register p =>
    intro v hv woken hawait _ hadm
    rcases mem_append.mp hv with hv | hv
    · have hb := admits_of_register hf hadm
      exact hg v hv woken hawait (available_pos_of_admits hb) hb
    · rw [mem_singleton.mp hv] at hawait
      cases hawait
  | @enter _ w admitted _ ha =>
    intro v hv woken hawait _ hadm
    have hb := ho w.priority admitted ha v (mem_of_mem_eraseIdx hv) hadm
    exact hg v (mem_of_mem_eraseIdx hv) woken hawait (available_pos_of_admits hb) hb
  | refuse hw ha =>
    intro v hv woken hawait hpos hadm
    rcases mem_or_eq_of_mem_set hv with hv | rfl
    · exact hg v hv woken hawait hpos hadm
    · -- The refused waiter itself: it sleeps because it is not admissible.
      have hnot := not_admits_of_admitWaiter_none ha
      rw [hnot] at hadm
      cases hadm
  | release =>
    intro v hv woken hawait _ _
    exact woken_of_notify hv hawait
  | drop hw =>
    intro v hv woken hawait _ _
    exact woken_of_notify hv hawait

theorem fresh_step (h : g.step e = some g') (hf : Fresh g.state) : Fresh g'.state := by
  cases step_move h with
  | register p => exact fresh_register hf
  | enter _ ha => exact fresh_admitWaiter ha
  | refuse => exact hf
  | release => exact hf
  | drop => exact fresh_unregister

theorem capacity_step (h : g.step e = some g') (hle : g.state.available ≤ g.capacity) :
    g'.capacity = g.capacity ∧ g'.state.available ≤ g'.capacity := by
  cases step_move h with
  | register p => cases p <;> exact ⟨rfl, hle⟩
  | @enter _ _ admitted _ ha =>
    refine ⟨rfl, ?_⟩
    have := admitWaiter_available ha
    show admitted.available ≤ g.capacity
    omega
  | refuse => exact ⟨rfl, hle⟩
  | release => exact ⟨rfl, Nat.min_le_right ..⟩
  | drop => exact ⟨rfl, available_unregister.symm ▸ hle⟩

/-! ### Runs -/

/-- Every waiter that registers is of a class the mix holds. -/
def Within (mix : TransferPriority → Bool) : GovernorEvent → Prop
  | .register p => mix p = true
  | _ => True

variable {events : List GovernorEvent}

theorem noSlotAsleep_of_one_slot {capacity : Nat} (hcap : capacity ≤ 1)
    (hrun : (new capacity).run events = some g) : NoSlotAsleep g := by
  have h := Runs.run_invariant
    (P := fun g => g.capacity = 1 ∧ g.state.available ≤ g.capacity ∧ Fresh g.state ∧ NoSlotAsleep g)
    ?_ hrun ?_
  · exact h.2.2.2
  · intro g e g' hs hinv
    obtain ⟨hone, hle, hf, hawake⟩ := hinv
    obtain ⟨hcap', hle'⟩ := capacity_step hs hle
    refine ⟨hcap'.trans hone, hle', fresh_step hs hf, ?_⟩
    refine noSlotAsleep_step hs hf ?_ hawake
    intro p admitted ha w _ hadm
    have hpos := available_pos_of_admits hadm
    have := admitWaiter_available ha
    omega
  · refine ⟨?_, Nat.le_refl _, fun _ => rfl, ?_⟩
    · show max capacity 1 = 1
      omega
    · intro w hw
      simp [new] at hw

/-- Every waiter is of one class, and the counts know of no other. -/
def OneClass (p : TransferPriority) (g : EndpointGovernor) : Prop :=
  (∀ w ∈ g.waiters, w.priority = p) ∧ Alone g.state p

theorem notify_priority (h : ∀ w ∈ waiters, w.priority = p) :
    ∀ w ∈ waiters.map notify, w.priority = p := by
  intro w hw
  obtain ⟨w, hmem, rfl⟩ := mem_map.mp hw
  unfold notify
  split <;> exact h w hmem

theorem oneClass_step (hmix : ∀ q, mix q = true → q = p)
    (he : Within mix e) (h : g.step e = some g') (hone : OneClass p g) : OneClass p g' := by
  obtain ⟨hc, halone⟩ := hone
  cases step_move h with
  | register q =>
    obtain rfl := hmix q he
    refine ⟨?_, alone_register halone⟩
    intro v hv
    rcases mem_append.mp hv with hv | hv
    · exact hc v hv
    · rw [mem_singleton.mp hv]
  | @enter _ w _ hw ha =>
    have hp := hc w (mem_of_getElem? hw)
    exact ⟨fun v hv => hc v (mem_of_mem_eraseIdx hv), alone_admitWaiter halone (hp ▸ ha)⟩
  | @refuse _ w hw =>
    refine ⟨?_, halone⟩
    intro v hv
    rcases mem_or_eq_of_mem_set hv with hv | rfl
    · exact hc v hv
    · exact hc w (mem_of_getElem? hw)
  | release => exact ⟨notify_priority hc, halone⟩
  | @drop _ w hw =>
    have hp := hc w (mem_of_getElem? hw)
    refine ⟨notify_priority fun v hv => hc v (mem_of_mem_eraseIdx hv), ?_⟩
    rw [hp]
    exact alone_unregister halone

/-- One class: who sleeps was refused for want of a slot, and a slot comes back with a
wake-up. -/
theorem noSlotAsleep_of_one_class (hmix : ∀ q, mix q = true → q = p)
    {capacity : Nat} (hevents : ∀ e ∈ events, Within mix e)
    (hrun : (new capacity).run events = some g) : NoSlotAsleep g := by
  have h := Runs.run_invariant_of
    (P := fun g => OneClass p g ∧ Fresh g.state ∧ NoSlotAsleep g) (Q := Within mix)
    ?_ hevents hrun ?_
  · exact h.2.2
  · intro g e g' he hs hinv
    obtain ⟨hone, hf, hawake⟩ := hinv
    refine ⟨oneClass_step hmix he hs hone, fresh_step hs hf, ?_⟩
    refine noSlotAsleep_step hs hf ?_ hawake
    intro q admitted ha w hw _
    rw [hone.1 w hw]
    exact admits_of_alone hone.2 (available_pos_of_admits (admits_of_admitWaiter ha))
  · refine ⟨⟨?_, ?_⟩, fun _ => rfl, ?_⟩
    · intro w hw
      simp [new] at hw
    · cases p <;> rfl
    · intro w hw
      simp [new] at hw

/-- A background waiter is refused in favour of a foreground one, which is then admitted. -/
def foregroundFirst : List GovernorEvent :=
  [.register .foreground, .register .background, .poll 1, .poll 0]

/-- What `foregroundFirst` leads to. -/
def leftAsleep (capacity : Nat) : EndpointGovernor where
  capacity := max capacity 1
  state :=
    { available := max capacity 1 - 1
      foregroundWaiters := 0
      backgroundWaiters := 1
      foregroundBypass := 1 }
  waiters := [{ priority := .background, await := .suspended false }]
  leases := 1

theorem run_foregroundFirst : (new capacity).run foregroundFirst = some (leftAsleep capacity) := by
  have hne : max capacity 1 ≠ 0 := by omega
  simp [run, Runs.run, foregroundFirst, new, step, register, admitWaiter, priorityAdmits,
    backgroundTurn, maxForegroundBypass, leftAsleep]

/-- **A slot can be left asleep exactly with two slots and both classes.**  In every run
whose waiters are all of one class, or that has one slot, a suspended waiter that would be
admitted has its wake-up; with two slots and both classes some run leaves it asleep. -/
theorem noSlotAsleep_iff (mix : TransferPriority → Bool) :
    (∀ events g, (∀ e ∈ events, Within mix e) → (new capacity).run events = some g →
      NoSlotAsleep g) ↔
    capacity ≤ 1 ∨ ∃ p, ∀ q, mix q = true → q = p := by
  constructor
  · intro h
    by_cases hcap : capacity ≤ 1
    · exact .inl hcap
    by_cases hfg : mix .foreground = true
    · by_cases hbg : mix .background = true
      · have hwithin : ∀ e ∈ foregroundFirst, Within mix e := by
          simp [foregroundFirst, Within, hfg, hbg]
        have hasleep := h foregroundFirst _ hwithin (run_foregroundFirst capacity)
        have hpos : 0 < max capacity 1 - 1 := by omega
        have hwoken := hasleep _ (mem_singleton_self _) false rfl hpos
          (by simp [priorityAdmits, leftAsleep]; omega)
        cases hwoken
      · exact .inr ⟨.foreground, fun q hq => by cases q <;> simp_all⟩
    · exact .inr ⟨.background, fun q hq => by cases q <;> simp_all⟩
  · intro hcond events g hevents hrun
    rcases hcond with hcap | ⟨p, hmix⟩
    · exact noSlotAsleep_of_one_slot hcap hrun
    · exact noSlotAsleep_of_one_class hmix hevents hrun

/-- Two slots, one foreground and one background waiter: after the foreground one is
admitted a slot is free, the background waiter would be admitted, and nothing wakes it. -/
theorem backgroundWaiter_asleep :
    ∃ g, (new 2).run foregroundFirst = some g ∧ g.state.available = 1 ∧
      g.waiters = [{ priority := .background, await := .suspended false }] ∧
      priorityAdmits g.state .background = true ∧ ¬ NoSlotAsleep g := by
  refine ⟨leftAsleep 2, by decide, rfl, rfl, by decide, ?_⟩
  intro h
  cases h _ (mem_singleton_self _) false rfl (by decide) (by decide)

/-! ### Slots, counts and bypasses -/

def classes (waiters : List EndpointWaiter) : List TransferPriority := waiters.map (·.priority)

/-- The slots are free or leased, and the counts are those of the waiters. -/
def Counted (g : EndpointGovernor) : Prop :=
  g.state.available + g.leases = g.capacity ∧ ∀ q, g.state.waiting q = (classes g.waiters).count q

theorem classes_notify (waiters : List EndpointWaiter) :
    classes (waiters.map notify) = classes waiters := by
  rw [classes, map_map]
  refine map_congr_left fun w _ => ?_
  show w.notify.priority = w.priority
  unfold notify
  split <;> rfl

theorem count_eraseIdx {i : Nat} (h : waiters[i]? = some w) (q : TransferPriority) :
    (classes (waiters.eraseIdx i)).count q = (classes waiters).count q - if w.priority = q then
      1 else 0 := by
  obtain ⟨hi, rfl⟩ := List.getElem?_eq_some_iff.mp h
  have hp := (getElem_cons_eraseIdx_perm hi).map (·.priority)
  rw [classes, classes, ← hp.count_eq, map_cons, count_cons]
  simp

theorem counted_step (h : g.step e = some g') (hg : Counted g) : Counted g' := by
  obtain ⟨hslots, hwait⟩ := hg
  cases step_move h with
  | register p =>
    refine ⟨by cases p <;> exact hslots, fun q => ?_⟩
    rw [waiting_register, hwait, classes, classes]
    simp [count_cons]
  | enter hw ha =>
    refine ⟨?_, fun q => ?_⟩
    · have hpos := available_pos_of_admits (admits_of_admitWaiter ha)
      have := admitWaiter_available ha
      simp only
      omega
    · rw [waiting_admitWaiter ha, hwait, count_eraseIdx hw]
  | @refuse i w hw =>
    refine ⟨hslots, fun q => ?_⟩
    have hsame : (classes g.waiters)[i]?
        = some w.priority := by rw [classes, getElem?_map, hw, Option.map_some]
    obtain ⟨hi, heq⟩ := List.getElem?_eq_some_iff.mp hsame
    rw [hwait, classes, classes, map_set, ← heq]
    exact congrArg _ (set_getElem_self hi).symm
  | release hl =>
    refine ⟨?_, fun q => (hwait q).trans (by rw [classes_notify])⟩
    simp only
    omega
  | drop hw =>
    refine ⟨by rw [available_unregister]; exact hslots, fun q => ?_⟩
    rw [waiting_unregister, hwait, classes_notify, count_eraseIdx hw]

/-- The class of the waiter that an event admits. -/
def admitted (g : EndpointGovernor) : GovernorEvent → Option TransferPriority
  | .poll index => g.waiters[index]?.bind fun waiter =>
    (g.state.admitWaiter waiter.priority).map fun _ => waiter.priority
  | _ => none

theorem admitted_poll {i : Nat} (h : g.waiters[i]? = some w) :
    g.admitted (.poll i) = (g.state.admitWaiter w.priority).map fun _ => w.priority := by
  rw [admitted, h, Option.bind_some]

/-- The classes of the waiters that are admitted, in their order. -/
def admissions : EndpointGovernor → List GovernorEvent → List TransferPriority
  | _, [] => []
  | g, e :: events => (g.step e).elim [] fun g' => (g.admitted e).toList ++ g'.admissions events

/-- A background waiter is registered and stays so, and none is admitted. -/
def Bypasses (g : EndpointGovernor) (e : GovernorEvent) : Prop :=
  ∀ g', g.step e = some g' → .background ∈ classes g.waiters ∧ .background ∈ classes g'.waiters ∧
    g.admitted e ≠ some .background

theorem bypass_step (h : g.step e = some g') (hg : Counted g) (hbypass : Bypasses g e) :
    (g.admitted e).toList.length + (maxForegroundBypass - g'.state.foregroundBypass) ≤
      maxForegroundBypass - g.state.foregroundBypass := by
  obtain ⟨hbg, hbg', hnot⟩ := hbypass g' h
  have hpos : 0 < g.state.waiting .background := hg.2 _ ▸ count_pos_iff.mpr hbg
  have hpos' : 0 < g'.state.waiting .background := (counted_step h hg).2 _ ▸ count_pos_iff.mpr hbg'
  rw [waiting] at hpos hpos'
  cases step_move h with
  | register p => cases p <;> simp [EndpointGovernor.admitted, register]
  | enter hw ha =>
    rw [admitted_poll hw, ha, Option.map_some] at hnot ⊢
    obtain ⟨hp, ⟨hc, rfl⟩ | ⟨hc, rfl⟩⟩ := admitWaiter_cases ha
    · have ht := (admits_foreground.mp (hc ▸ hp)).2
      simp only [backgroundTurn, hpos, decide_true, Bool.true_and, decide_eq_false_iff_not] at ht
      simp only [hpos, if_true, Option.toList_some, length_singleton]
      omega
    · exact absurd (congrArg some hc) hnot
  | refuse hw ha =>
    rw [admitted_poll hw, ha]
    simp
  | release => simp [EndpointGovernor.admitted]
  | drop hw => simp [EndpointGovernor.admitted, bypass_unregister hpos']

theorem length_admissions_le {period : List GovernorEvent} (hg : Counted g)
    (h : Runs.Along step Bypasses g period) :
    (g.admissions period).length ≤ maxForegroundBypass - g.state.foregroundBypass := by
  induction period generalizing g with
  | nil => exact Nat.zero_le _
  | cons e period ih =>
    rw [admissions]
    cases hs : g.step e with
    | none => exact Nat.zero_le _
    | some g' =>
      have hr := ih (counted_step hs hg) (h.2 g' hs)
      have hone := bypass_step hs hg h.1
      rw [Option.elim_some, length_append]
      omega

/-- **Slots are conserved and background work is not starved.**  In every run the slots are free
or leased and the counts are those of the registered waiters, and while a background waiter stays
registered, at most `maxForegroundBypass` waiters are admitted before a background one. -/
theorem slots_conserved_bypass_bounded (events : List GovernorEvent)
    (hrun : (new capacity).run events = some g) :
    g.state.available + g.leases = max capacity 1 ∧
      g.state.foregroundWaiters = (g.waiters.map (·.priority)).count .foreground ∧
      g.state.backgroundWaiters = (g.waiters.map (·.priority)).count .background ∧
      ∀ period, Runs.Along step Bypasses g period →
        (g.admissions period).length ≤ maxForegroundBypass := by
  obtain ⟨hcap, hcounted⟩ : g.capacity = max capacity 1 ∧ Counted g := by
    refine Runs.run_invariant (P := fun g => g.capacity = max capacity 1 ∧ Counted g)
      (fun g e g' hstep hg => ?_) hrun ⟨rfl, rfl, fun q => by cases q <;> rfl⟩
    exact ⟨(capacity_step hstep (hg.2.1 ▸ Nat.le_add_right ..)).1.trans hg.1,
      counted_step hstep hg.2⟩
  refine ⟨hcounted.1.trans hcap, hcounted.2 .foreground, hcounted.2 .background,
    fun period hperiod => ?_⟩
  exact Nat.le_trans (length_admissions_le hcounted hperiod) (Nat.sub_le _ _)

/-- One slot, with a background and a foreground waiter. -/
def oneSlot : EndpointGovernor :=
  { new 1 with
    state := ((new 1).state.register .background).register .foreground
    waiters := [⟨.background, .starting⟩, ⟨.foreground, .starting⟩] }

/-- The slot is leased to foreground work while a background waiter is registered. -/
theorem slots_conserved_bypass_bounded_one :
    oneSlot.state.available + oneSlot.leases = 1 ∧ Runs.Along step Bypasses oneSlot [.poll 1] ∧
      oneSlot.admissions [.poll 1] = [.foreground] ∧
      (oneSlot.admissions [.poll 1]).length ≤ maxForegroundBypass := by
  have hrun : (new 1).run [.register .background, .register .foreground] = some oneSlot := rfl
  obtain ⟨hslots, -, -, hbypass⟩ := slots_conserved_bypass_bounded 1 _ hrun
  have hperiod : Runs.Along step Bypasses oneSlot [.poll 1] := by
    refine ⟨fun g' hstep => ?_, fun _ _ => trivial⟩
    cases hstep
    decide
  exact ⟨hslots, hperiod, rfl, hbypass _ hperiod⟩

end EndpointGovernor

end AeroFtp.Dag
