import Lldb.GdbRemote.ClientBase
import Mathlib.Algebra.BigOperators.Group.Finset.Piecewise
import Mathlib.Data.Fintype.Basic

/-! Who may use the connection while the process runs. -/

set_option autoImplicit false

namespace Lldb.GdbRemote.ClientBase

open Option

variable {ι : Type}

/-- The `Lock` of a thread at this point has been counted and not destroyed. -/
def counts : AsyncPoint → Bool
  | .waiting _ | .acquired _ _ | .inside _ _ | .leaving => true
  | .idle | .entering _ | .refused _ | .unlocking => false

/-- The `Lock` has been acquired and not destroyed. -/
def owns : AsyncPoint → Bool
  | .acquired _ _ | .inside _ _ | .leaving => true
  | .idle | .entering _ | .waiting _ | .refused _ | .unlocking => false

/-- The `^C` bytes written since the process was last continued. -/
def interruptsSent : List (Event ι) → Nat
  | [] => 0
  | .continued _ :: _ => 0
  | .interruptByte _ :: trace => interruptsSent trace + 1
  | _ :: trace => interruptsSent trace

def continuePacketOf : Event ι → Option Bytes
  | .continued packet => some packet
  | .failed packet => packet
  | _ => none

section

variable [DecidableEq ι]

/-- `SendvContPacket` fails to write the `^C` of its `Lock`. -/
def InterruptLost (client : ClientBase ι) (action : Action ι) : Prop :=
  ∃ thread, action = .async thread (.syncWithContinueThread false) ∧
    client.threads thread = .entering .sendvContPacket ∧ client.isRunning = true ∧ client.asyncCount = 0

/-- No `SendvContPacket` goes on without its `Lock`. -/
def Obedient (client : ClientBase ι) : Prop :=
  ∀ thread, client.threads thread ≠ .refused .sendvContPacket

variable {client after : ClientBase ι} {action : Action ι}

theorem Obedient.move (obedient : Obedient client) {thread : ι}
    {point : AsyncPoint} (moved : after.threads = Function.update client.threads thread point)
    (other : point ≠ .refused .sendvContPacket) : Obedient after := by
  intro this
  rw [moved]
  by_cases same : this = thread
  · rw [same, Function.update_self]
    exact other
  · rw [Function.update_of_ne same]
    exact obedient this

theorem Obedient.step {client after : ClientBase ι} (obedient : Obedient client) {action : Action ι}
    (kept : ¬ client.InterruptLost action) (stepped : client.step action = some after) :
    Obedient after := by
  cases action with
  | continuing action =>
    have threads : after.threads = client.threads := by cases continueStep_cases stepped <;> rfl
    intro thread
    rw [threads]
    exact obedient thread
  | async thread action =>
    cases asyncStep_cases stepped with
    | call here => exact obedient.move rfl (by simp)
    | @refuse request written here running why =>
      apply obedient.move rfl
      intro same
      cases same
      rcases why with unasked | ⟨first, rfl⟩
      · cases unasked
      · exact kept ⟨thread, rfl, here, running, first⟩
    | interrupt here running first => exact obedient.move rfl (by simp)
    | wait here running others => exact obedient.move rfl (by simp)
    | acquire here free => exact obedient.move rfl (by simp)
    | wake here free => exact obedient.move rfl (by simp)
    | lockAsync here free => exact obedient.move rfl (by simp)
    | @finish request didInterrupt here =>
      have threads := (finish_frame client thread didInterrupt request).1
      exact obedient.move (by rw [threads_move, threads]) (AsyncPoint.noConfusion)
    | giveUp here => exact obedient.move rfl (by simp)
    | destroy here => exact obedient.move rfl (by simp)
    | unlockAsync here => exact obedient.move rfl (by simp)
    | send able => exact obedient

def KeepsInterrupts (client : ClientBase ι) (actions : List (Action ι)) : Prop :=
  ∀ front action reached, front ++ [action] <+: actions → client.run front = some reached →
    ¬ reached.InterruptLost action

theorem Obedient.run (obedient : Obedient client) {actions : List (Action ι)} (kept : client.KeepsInterrupts actions)
    (ran : client.run actions = some after) : Obedient after := by
  induction actions generalizing client with
  | nil => cases ran; exact obedient
  | cons action actions ih =>
    -- The condition is on every prefix of the actions, so it passes on to the rest of them.
    obtain ⟨next, stepped, ran⟩ := bind_eq_some_iff.mp ran
    have now : ¬ client.InterruptLost action := kept [] action client (by simp) rfl
    apply ih (obedient.step now stepped) _ ran
    intro front later reached inside came
    apply kept (action :: front) later reached
    · simpa using inside
    · exact bind_eq_some_iff.mpr ⟨next, stepped, came⟩

/-- Without its `Lock`, `SendvContPacket` can send while the process runs. -/
theorem sends_after_interruptLost (lost : client.InterruptLost action) :
    ∃ reached thread, client.step action = some reached ∧ reached.isRunning = true ∧
      reached.step (.async thread .send) = some (reached.record (.packet thread)) := by
  obtain ⟨thread, rfl, here, running, first⟩ := lost
  refine ⟨client.move thread (.refused .sendvContPacket), thread, ?_, running, ?_⟩
  · have refused : client.syncWithContinueThread thread .sendvContPacket false =
        client.move thread (.refused .sendvContPacket) := by
      unfold syncWithContinueThread
      rw [if_neg (by simp [Request.interrupts])]
      dsimp only
      rw [if_pos running, if_pos (by omega)]
      rfl
    simp [ClientBase.step, asyncStep, here, refused]
  · simp [ClientBase.step, asyncStep, maySend]

theorem maySend_cases {point : AsyncPoint} (able : maySend point = true) :
    owns point = true ∨ point = .refused .sendvContPacket := by
  unfold maySend at able
  split at able
  · exact .inl rfl
  · exact .inl rfl
  · exact .inr rfl
  · cases able

theorem step_packet {thread : ι}
    (stepped : client.step action = some after) (wrote : after.trace = .packet thread :: client.trace) :
    ∃ sender, maySend (client.threads sender) = true := by
  cases action with
  | continuing action => cases continueStep_cases stepped <;> simp [record] at wrote
  | async sender action =>
    cases asyncStep_cases stepped with
    | send able => exact ⟨sender, able⟩
    | @finish request didInterrupt here =>
      cases request <;> cases didInterrupt <;> simp [finish, record] at wrote
    | _ => simp [record] at wrote

theorem step_continuePacket {event : Event ι} {packet : Bytes} (stepped : client.step action = some after)
    (wrote : after.trace = event :: client.trace) (continues : continuePacketOf event = some packet) :
    client.asyncCount = 0 := by
  cases action with
  | continuing action =>
    cases continueStep_cases stepped with
    | resume here alone go => exact alone
    | fail here alone go => exact alone
    | read here => simp at wrote
    | _ => simp only [record, List.cons.injEq, and_true] at wrote; subst wrote; cases continues
  | async sender action =>
    cases asyncStep_cases stepped with
    | @finish request didInterrupt here =>
      cases request <;> cases didInterrupt <;> simp [finish, record] at wrote <;> subst wrote <;>
        cases continues
    | send able => simp only [record, List.cons.injEq, and_true] at wrote; subst wrote; cases continues
    | interrupt here running first =>
      simp only [record, trace_move, List.cons.injEq, and_true] at wrote
      subst wrote
      cases continues
    | _ => simp at wrote

end

section

variable [Fintype ι]

variable (threads : ι → AsyncPoint)

/-- The number of `Lock` objects that have been counted and not destroyed. -/
def lockCount : Nat :=
  (Finset.univ.filter fun thread => counts (threads thread) = true).card

theorem lockCount_eq_sum :
    lockCount threads = ∑ thread, (counts (threads thread)).toNat := by
  unfold lockCount
  rw [Finset.card_filter]
  apply Finset.sum_congr rfl
  intro thread _
  cases counts (threads thread) <;> rfl

variable {thread : ι} {client after : ClientBase ι}

theorem lockCount_pos {threads : ι → AsyncPoint} (counted : counts (threads thread) = true) : 0 < lockCount threads := by
  apply Finset.card_pos.mpr
  exact ⟨thread, Finset.mem_filter.mpr ⟨Finset.mem_univ thread, counted⟩⟩

theorem owns_false_of_alone {threads : ι → AsyncPoint} (alone : lockCount threads = 0) (thread : ι) :
    owns (threads thread) = false := by
  have uncounted : ¬ counts (threads thread) = true := fun counted =>
    absurd alone (ne_of_gt (lockCount_pos counted))
  cases point : threads thread with
  | idle => rfl
  | entering request => rfl
  | waiting request => rfl
  | refused request => rfl
  | unlocking => rfl
  | acquired request didInterrupt => simp [point, counts] at uncounted
  | inside request didInterrupt => simp [point, counts] at uncounted
  | leaving => simp [point, counts] at uncounted

structure Sound (client : ClientBase ι) : Prop where
  counted : client.asyncCount = lockCount client.threads
  running : client.isRunning = holdsLock client.continuer
  blocked : client.isRunning = true → ∀ thread, owns (client.threads thread) = false
  interrupts : client.isRunning = true → interruptsSent client.trace = if client.asyncCount = 0 then 0 else 1

/-- Whoever owns a `Lock` has it while the process stands still. -/
theorem Sound.stopped_of_owns (sound : Sound client)
    (owner : owns (client.threads thread) = true) : client.isRunning = false := by
  cases running : client.isRunning with
  | false => rfl
  | true =>
    rw [sound.blocked running thread] at owner
    cases owner

theorem sound_new : Sound (new : ClientBase ι) where
  counted := by simp [new, lockCount, counts]
  running := rfl
  blocked running := by cases running
  interrupts running := by cases running

theorem Sound.resting (sound : Sound client)
    (threads : after.threads = client.threads) (count : after.asyncCount = client.asyncCount)
    (free : after.isRunning = false) (unlocked : holdsLock after.continuer = false) : Sound after where
  counted := by rw [count, threads, sound.counted]
  running := by rw [free, unlocked]
  blocked running := by rw [free] at running; cases running
  interrupts running := by rw [free] at running; cases running

theorem Sound.continueStep (sound : Sound client)
    {action : ContinueAction} (stepped : ContinueStep client action after) : Sound after := by
  have running := sound.running
  cases stepped with
  | call here =>
    rw [here] at running
    exact sound.resting rfl rfl running rfl
  | cancelled here alone stop =>
    rw [not_holdsLock_of_resumesAt here] at running
    exact sound.resting rfl rfl running rfl
  | resume here alone go =>
    -- No `Lock` is counted, so none is acquired, and no `^C` follows the continue packet yet.
    refine ⟨sound.counted, rfl, fun _ => ?_, fun _ => ?_⟩
    · apply owns_false_of_alone
      exact sound.counted.symm.trans alone
    · exact (if_pos alone).symm
  | fail here alone go =>
    rw [not_holdsLock_of_resumesAt here] at running
    exact sound.resting rfl rfl running rfl
  | @read reply here =>
    rw [here] at running
    have holds : holdsLock (client.read reply) = true := holdsLock_read client reply
    exact ⟨sound.counted, running.trans holds.symm, sound.blocked, sound.interrupts⟩
  | stopReply here => exact sound.resting rfl rfl rfl rfl
  | stopped here =>
    rw [here] at running
    exact sound.resting rfl rfl running rfl
  | ended here => exact sound.resting rfl rfl rfl rfl

variable [DecidableEq ι]

theorem lockCount_update (thread : ι) (point : AsyncPoint) :
    lockCount (Function.update threads thread point) + (counts (threads thread)).toNat =
      lockCount threads + (counts point).toNat := by
  -- Only the moving thread's own summand changes.
  have others : ∑ other ∈ Finset.univ.erase thread,
      (counts (Function.update threads thread point other)).toNat =
        ∑ other ∈ Finset.univ.erase thread, (counts (threads other)).toNat := by
    apply Finset.sum_congr rfl
    intro other member
    rw [Function.update_of_ne (Finset.ne_of_mem_erase member)]
  rw [lockCount_eq_sum, lockCount_eq_sum, ← Finset.add_sum_erase _ _ (Finset.mem_univ thread),
    ← Finset.add_sum_erase Finset.univ (fun other => (counts (threads other)).toNat)
      (Finset.mem_univ thread), Function.update_self]
  omega

/-- A thread moves on: the count keeps up with its `Lock`, and it gets hold of nothing
while the process runs. -/
theorem Sound.move (sound : Sound client) {point : AsyncPoint}
    (moved : after.threads = Function.update client.threads thread point)
    (continuer : after.continuer = client.continuer) (same : after.isRunning = client.isRunning)
    (count : after.asyncCount + (counts (client.threads thread)).toNat = client.asyncCount + (counts point).toNat)
    (outside : client.isRunning = true → owns point = false)
    (interrupts : client.isRunning = true → interruptsSent after.trace = if after.asyncCount = 0 then 0 else 1) :
    Sound after where
  counted := by
    have total := lockCount_update client.threads thread point
    have before := sound.counted
    rw [moved]
    omega
  running := by rw [same, continuer, sound.running]
  blocked running other := by
    rw [same] at running
    rw [moved]
    by_cases this : other = thread
    · simp [this, outside running]
    · rw [Function.update_of_ne this, sound.blocked running]
  interrupts running := interrupts (same ▸ running)

theorem Sound.moveStopped (sound : Sound client) {point : AsyncPoint} (free : client.isRunning = false)
    (moved : after.threads = Function.update client.threads thread point)
    (continuer : after.continuer = client.continuer) (same : after.isRunning = client.isRunning)
    (count : after.asyncCount + (counts (client.threads thread)).toNat =
      client.asyncCount + (counts point).toNat) : Sound after := by
  have idle : ¬ client.isRunning = true := by simp [free]
  exact sound.move moved continuer same count (fun running => absurd running idle)
    (fun running => absurd running idle)

theorem Sound.asyncStep (sound : Sound client)
    {action : AsyncAction} (stepped : AsyncStep client thread action after) : Sound after := by
  have interrupts := sound.interrupts
  cases stepped with
  | call here => exact sound.move rfl rfl rfl (by rw [here]; rfl) (fun _ => rfl) interrupts
  | refuse here running why => exact sound.move rfl rfl rfl (by rw [here]; rfl) (fun _ => rfl) interrupts
  | interrupt here running first =>
    refine sound.move rfl rfl rfl (by rw [here]; rfl) (fun _ => rfl) ?_
    intro running
    have noneYet := interrupts running
    rw [if_pos first] at noneYet
    simp [record, interruptsSent, noneYet, first]
  | wait here running others =>
    refine sound.move rfl rfl rfl (by rw [here]; rfl) (fun _ => rfl) ?_
    intro running
    have one := interrupts running
    rw [if_neg others] at one
    simpa using one
  | acquire here free => exact sound.moveStopped free rfl rfl rfl (by rw [here]; rfl)
  | wake here free => exact sound.moveStopped free rfl rfl rfl (by rw [here]; rfl)
  | lockAsync here free =>
    have free := sound.stopped_of_owns (show owns (client.threads thread) = true by rw [here]; rfl)
    exact sound.moveStopped free rfl rfl rfl (by rw [here]; rfl)
  | @finish request didInterrupt here =>
    have free := sound.stopped_of_owns (show owns (client.threads thread) = true by rw [here]; rfl)
    obtain ⟨threads, count, running, continuer⟩ := finish_frame client thread didInterrupt request
    have moved : ((client.finish thread didInterrupt request).move thread .leaving).threads =
        Function.update client.threads thread .leaving := by simp [threads]
    apply sound.moveStopped free moved continuer running
    rw [here, asyncCount_move, count]
    rfl
  | giveUp here => exact sound.move rfl rfl rfl (by rw [here]; rfl) (fun _ => rfl) interrupts
  | destroy here =>
    have free := sound.stopped_of_owns (show owns (client.threads thread) = true by rw [here]; rfl)
    refine sound.moveStopped free rfl rfl rfl ?_
    -- The `Lock` that goes was counted, so the count does not stop at zero.
    have positive := lockCount_pos (show counts (client.threads thread) = true by rw [here]; rfl)
    have counted := sound.counted
    rw [here]
    simp only [asyncCount_move, counts, Bool.toNat_true, Bool.toNat_false]
    omega
  | unlockAsync here => exact sound.move rfl rfl rfl (by rw [here]; rfl) (fun _ => rfl) interrupts
  | send able => exact ⟨sound.counted, sound.running, sound.blocked, interrupts⟩

theorem Sound.step {client after : ClientBase ι} (sound : Sound client) {action : Action ι}
    (stepped : client.step action = some after) : Sound after := by
  cases action with
  | async thread action => exact sound.asyncStep (asyncStep_cases stepped)
  | continuing action => exact sound.continueStep (continueStep_cases stepped)

theorem Sound.run (sound : Sound client) {actions : List (Action ι)}
    (ran : client.run actions = some after) : Sound after := by
  induction actions generalizing client with
  | nil => cases ran; exact sound
  | cons action actions ih =>
    obtain ⟨next, stepped, ran⟩ := bind_eq_some_iff.mp ran
    exact ih (sound.step stepped) ran

/-- What the class promises about its connection, in one state and the steps from it. -/
structure Exclusive (client : ClientBase ι) : Prop where
  counted : client.asyncCount = lockCount client.threads
  noPacket : ∀ action after thread, client.step action = some after →
    after.trace = .packet thread :: client.trace → client.isRunning = false
  resumesAlone : ∀ action after event packet, client.step action = some after →
    after.trace = event :: client.trace → continuePacketOf event = some packet → client.asyncCount = 0
  oneInterrupt : client.isRunning = true → interruptsSent client.trace ≤ 1

theorem Sound.exclusive (sound : Sound client) (obedient : Obedient client) : Exclusive client where
  counted := sound.counted
  noPacket action after thread stepped wrote := by
    -- Who sends owns a `Lock`, or is a `SendvContPacket` that went on without one.
    obtain ⟨sender, able⟩ := step_packet stepped wrote
    rcases maySend_cases able with owner | refused
    · exact sound.stopped_of_owns owner
    · exact absurd refused (obedient sender)
  resumesAlone action after event packet stepped wrote continues :=
    step_continuePacket stepped wrote continues
  oneInterrupt running := by
    rw [sound.interrupts running]
    split <;> omega

/-- The connection is used exclusively all along a run exactly when no step of the run loses
the interrupt of a `SendvContPacket`. -/
theorem exclusive_iff_keepsInterrupts (actions : List (Action ι)) :
    (∀ front client, front <+: actions → (new : ClientBase ι).run front = some client → Exclusive client) ↔
      (new : ClientBase ι).KeepsInterrupts actions := by
  constructor
  -- The step after a lost interrupt sends while the process runs.
  · intro exclusive front action client inside ran lost
    obtain ⟨reached, thread, stepped, running, sends⟩ := sends_after_interruptLost lost
    have came : (new : ClientBase ι).run (front ++ [action]) = some reached := by
      simp [run_append, ran, run, stepped]
    have stopped := (exclusive _ reached inside came).noPacket _ _ thread sends rfl
    rw [running] at stopped
    cases stopped
  · intro kept front client inside ran
    have sound : Sound client := sound_new.run ran
    apply sound.exclusive
    have quiet : Obedient (new : ClientBase ι) := fun thread => AsyncPoint.noConfusion
    have keptBefore : (new : ClientBase ι).KeepsInterrupts front := by
      intro earlier action reached before came
      exact kept earlier action reached (before.trans inside) came
    exact quiet.run keptBefore ran

/-- The process runs, `SendvContPacket` cannot write its `^C`, and its packet goes out. -/
theorem not_always_exclusive : ¬ ∀ (actions : List (Action Unit)) (client : ClientBase Unit),
      (new : ClientBase Unit).run actions = some client → Exclusive client := by
  intro exclusive
  have ran : (new : ClientBase Unit).run
      [.continuing (.call [0x63]), .continuing (.lock true true),
        .async () (.call .sendvContPacket), .async () (.syncWithContinueThread false)] = some _ := rfl
  have stopped := (exclusive _ _ ran).noPacket (.async () .send) _ () rfl rfl
  cases stopped

end

end Lldb.GdbRemote.ClientBase
