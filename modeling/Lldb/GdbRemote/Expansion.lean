import Lldb.GdbRemote.Packet

/-! The expansion of a packet's content in `CheckForPacket`, with the places it looks at.

What stands behind the buffer, and what `back()` of an empty string gives, may be anything.
-/

set_option autoImplicit false

namespace Lldb.GdbRemote

open List

/-- A read of the buffer, and a look at the last character of the output so far. -/
inductive Access where
  | read (index : Nat)
  | back (packetStr : Bytes)
  deriving DecidableEq, Repr

structure Expansion where
  /-- The iterator `c`. -/
  position : Nat
  packetStr : Bytes
  deriving DecidableEq, Repr

namespace Expansion

variable (bytes : Nat → UInt8) (emptyBack : UInt8) (contentEnd : Nat)

def step (state : Expansion) : List Access × Expansion :=
  let c := state.position
  if bytes c = star then
    let charToRepeat := state.packetStr.getLast?.getD emptyBack
    let repeatCount := signedChar (bytes (c + 1)) + 3 - 32
    ([.read c, .back state.packetStr, .read (c + 1)],
      ⟨c + 2, state.packetStr ++ replicate repeatCount.toNat charToRepeat⟩)
  else if bytes c = escape then
    ([.read c, .read (c + 1)], ⟨c + 2, state.packetStr ++ [bytes (c + 1) ^^^ 0x20]⟩)
  else ([.read c], ⟨c + 1, state.packetStr ++ [bytes c]⟩)

inductive Run : Expansion → List Access → Expansion → Prop
  | done {state : Expansion} : state.position = contentEnd → Run state [] state
  | next {state final : Expansion} {accesses : List Access} : state.position ≠ contentEnd →
      Run (state.step bytes emptyBack).2 accesses final →
      Run state ((state.step bytes emptyBack).1 ++ accesses) final

/-- Reads lie in the content, and `back()` has something to give. -/
def Inside (contentStart : Nat) : Access → Prop
  | .read index => contentStart ≤ index ∧ index < contentEnd
  | .back packetStr => packetStr ≠ []

def Safe (contentStart : Nat) (state : Expansion) : Prop :=
  ∃ accesses final, Run bytes emptyBack contentEnd state accesses final ∧
    ∀ access ∈ accesses, Inside contentEnd contentStart access

end Expansion

def paired : Bytes → Bool
  | [] => true
  | c :: rest =>
    if c = star ∨ c = escape then
      match rest with
      | [] => false
      | _ :: rest => paired rest
    else paired rest

theorem paired_plain {c : UInt8} (rest : Bytes) (plain : ¬ (c = star ∨ c = escape)) :
    paired (c :: rest) = paired rest := by
  rw [paired.eq_def]
  simp [if_neg plain]

theorem expand_isSome (packetStr rest : Bytes) : (expand packetStr rest).isSome ↔
      paired rest = true ∧ (packetStr = [] → rest.head? ≠ some star) := by
  induction packetStr, rest using expand.induct with
  | case1 packetStr => simp [expand, paired]
  | case2 packetStr charToRepeat count rest last ih =>
    have some_ : packetStr ≠ [] := by
      intro none
      simp [none] at last
    rw [expand.eq_def]
    simpa [last, some_, paired] using ih
  | case3 packetStr rest stuck =>
    rw [expand.eq_def]
    cases rest with
    | nil => simp [paired]
    | cons count rest =>
      have none : packetStr = [] := by
        by_contra some_
        exact stuck _ count rest (getLast?_eq_some_getLast some_) rfl
      simp [none]
  | case4 packetStr escapee rest other ih =>
    rw [expand_escape, ih]
    simp [paired, other]
  | case5 packetStr other =>
    rw [expand.eq_def]
    simp [paired]
  | case6 packetStr c rest notRepeat notEscape ih =>
    rw [expand_plain packetStr rest notRepeat notEscape, ih, paired_plain rest (not_or.mpr ⟨notRepeat, notEscape⟩)]
    simp [notRepeat]

namespace Expansion

variable {bytes : Nat → UInt8} {emptyBack : UInt8} {contentEnd contentStart : Nat}

variable {state : Expansion} {rest : Bytes}

theorem safe_of_end (here : state.position = contentEnd) : Safe bytes emptyBack contentEnd contentStart state :=
  ⟨[], state, .done here, nofun⟩

theorem safe_iff_step (here : state.position ≠ contentEnd) : Safe bytes emptyBack contentEnd contentStart state ↔
      (∀ access ∈ (state.step bytes emptyBack).1, Inside contentEnd contentStart access) ∧
        Safe bytes emptyBack contentEnd contentStart (state.step bytes emptyBack).2 := by
  constructor
  · rintro ⟨accesses, final, run, inside⟩
    cases run with
    | done there => exact absurd there here
    | next _ run =>
      rw [forall_mem_append] at inside
      exact ⟨inside.1, _, final, run, inside.2⟩
  · rintro ⟨now, accesses, final, run, later⟩
    exact ⟨_, final, .next here run, forall_mem_append.mpr ⟨now, later⟩⟩

structure Rest (bytes : Nat → UInt8) (contentEnd contentStart : Nat) (state : Expansion) (rest : Bytes) : Prop where
  start : contentStart ≤ state.position
  length : state.position + rest.length = contentEnd
  bytes : ∀ index < rest.length, bytes (state.position + index) = rest.getD index 0

theorem Rest.head {c : UInt8} (at_ : Rest bytes contentEnd contentStart state (c :: rest)) : bytes state.position = c :=
  at_.bytes 0 (Nat.zero_lt_succ _)

theorem Rest.ne_end {c : UInt8}
    (at_ : Rest bytes contentEnd contentStart state (c :: rest)) : state.position ≠ contentEnd := by
  have := at_.length
  simp only [length_cons] at this
  omega

theorem Rest.drop (count : Nat) (packetStr : Bytes)
    (at_ : Rest bytes contentEnd contentStart state rest) (fits : count ≤ rest.length) :
    Rest bytes contentEnd contentStart ⟨state.position + count, packetStr⟩ (rest.drop count) where
  start := Nat.le_trans at_.start (Nat.le_add_right _ _)
  length := by
    have := at_.length
    simp only [length_drop]
    omega
  bytes index inside := by
    rw [length_drop] at inside
    have := at_.bytes (count + index) (by omega)
    simpa [add_assoc] using this

theorem step_star (marker : bytes state.position = star) : state.step bytes emptyBack =
      ([.read state.position, .back state.packetStr, .read (state.position + 1)],
        ⟨state.position + 2, state.packetStr ++ replicate (signedChar (bytes (state.position + 1)) + 3 - 32).toNat
            (state.packetStr.getLast?.getD emptyBack)⟩) := by
  simp [step, if_pos marker]

theorem step_escape (marker : bytes state.position = escape) : state.step bytes emptyBack =
      ([.read state.position, .read (state.position + 1)],
        ⟨state.position + 2, state.packetStr ++ [bytes (state.position + 1) ^^^ 0x20]⟩) := by
  have other : ¬ bytes state.position = star := by
    rw [marker]
    decide
  simp [step, if_neg other, if_pos marker]

theorem step_plain (plain : ¬ (bytes state.position = star ∨ bytes state.position = escape)) :
    state.step bytes emptyBack =
      ([.read state.position], ⟨state.position + 1, state.packetStr ++ [bytes state.position]⟩) := by
  rw [not_or] at plain
  simp [step, if_neg plain.1, if_neg plain.2]

theorem read_operand (marker : bytes state.position = star ∨ bytes state.position = escape) :
    .read (state.position + 1) ∈ (state.step bytes emptyBack).1 := by
  cases marker with
  | inl marker => simp [step_star marker]
  | inr marker => simp [step_escape marker]

theorem safe_iff (state : Expansion) (rest : Bytes) (at_ : Rest bytes contentEnd contentStart state rest) :
    Safe bytes emptyBack contentEnd contentStart state ↔
      paired rest = true ∧ (state.packetStr = [] → rest.head? ≠ some star) := by
  induction rest using paired.induct generalizing state with
  | case1 => simp [safe_of_end (by simpa using at_.length), paired]
  | case2 c marker =>
    -- The operand would stand at the end of the content.
    have length := at_.length
    rw [length_singleton] at length
    rw [safe_iff_step at_.ne_end]
    have outside : ¬ ∀ access ∈ (state.step bytes emptyBack).1, Inside contentEnd contentStart access := by
      intro inside
      have := (inside _ (read_operand (by rwa [at_.head]))).2
      omega
    simp [outside, paired, marker]
  | case3 c marker operand rest ih =>
    have length := at_.length
    have start := at_.start
    simp only [length_cons] at length
    have later (packetStr : Bytes) :=
      ih ⟨state.position + 2, packetStr⟩ (at_.drop 2 packetStr (by simp))
    rw [safe_iff_step at_.ne_end]
    cases marker with
    | inl marker =>
      subst marker
      rw [step_star at_.head, later]
      simp [Inside, paired]
      grind
    | inr marker =>
      subst marker
      rw [step_escape at_.head, later]
      have other : ¬ escape = star := by decide
      simp [Inside, paired, other]
      omega
  | case4 c rest plain ih =>
    have length := at_.length
    rw [length_cons] at length
    have here : state.position < contentEnd := by omega
    have later (packetStr : Bytes) :=
      ih ⟨state.position + 1, packetStr⟩ (at_.drop 1 packetStr (by simp))
    rw [safe_iff_step at_.ne_end, step_plain (by rwa [at_.head]), later]
    rw [paired_plain rest plain]
    rw [not_or] at plain
    simp [Inside, at_.start, here, plain.1]

/-- The loop stays inside just where the expansion of the content is defined. -/
theorem safe_iff_expand (state : Expansion) (rest : Bytes) (at_ : Rest bytes contentEnd contentStart state rest) :
    Safe bytes emptyBack contentEnd contentStart state ↔ (expand state.packetStr rest).isSome :=
  (safe_iff state rest at_).trans (expand_isSome state.packetStr rest).symm

def buffer (mBytes : Bytes) (junk : Nat → UInt8) (index : Nat) : UInt8 :=
  mBytes.getD index (junk index)

theorem rest_buffer (header : UInt8) (content behind : Bytes) (junk : Nat → UInt8) :
    Rest (buffer (header :: (content ++ hash :: behind)) junk) (1 + content.length) 1 ⟨1, []⟩ content where
  start := le_refl 1
  length := rfl
  bytes index inside := by
    simp [buffer, add_comm 1 index, inside, getElem?_append_left inside]

theorem safe_iff_expand_plain : Safe (buffer [0x41] fun _ => 0) 0 1 0 ⟨0, []⟩ ↔ (expand [] [0x41]).isSome :=
  safe_iff_expand ⟨0, []⟩ [0x41] ⟨le_refl 0, rfl, by decide⟩

/-- The expansion of a packet's content stays inside the content just if the content does not
begin with a repetition and every marker in it has its operand. -/
theorem safe_packet_iff (header : UInt8) (content behind : Bytes) (junk : Nat → UInt8) (emptyBack : UInt8) :
    Safe (buffer (header :: (content ++ hash :: behind)) junk) emptyBack (1 + content.length) 1 ⟨1, []⟩ ↔
      content.head? ≠ some star ∧ paired content = true := by
  rw [safe_iff _ content (rest_buffer header content behind junk)]
  simp [and_comm]

/-- For `$*#00` the loop asks an empty string for its last character, and steps over the hash. -/
theorem star_not_safe : ¬ Safe (buffer (dollar :: ([star] ++ hash :: [0x30, 0x30])) fun _ => 0) 0
    (1 + [star].length) 1 ⟨1, []⟩ := by
  rw [safe_iff _ [star] (rest_buffer dollar [star] [0x30, 0x30] _)]
  decide

end Expansion

end Lldb.GdbRemote
