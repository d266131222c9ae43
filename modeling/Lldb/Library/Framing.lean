import Mathlib.Algebra.Order.Ring.Int
import Mathlib.Data.List.Basic

/-! Streams cut into frames by a rule that looks only at the front of a stream.

The rule answers with the length of the first frame once all of it is there, and
the frame alone decides that answer, whatever follows it. That is all it takes for
the frames of a stream to be independent of the pieces the stream arrives in.
-/

set_option autoImplicit false

namespace Library

open List

structure Framer (σ : Type) where
  size : List σ → Option Nat
  positive : ∀ {stream : List σ} {length : Nat}, size stream = some length → 0 < length
  within : ∀ {stream : List σ} {length : Nat}, size stream = some length → length ≤ stream.length
  framed : ∀ {stream : List σ} {length : Nat} (more : List σ),
    size stream = some length → size (stream.take length ++ more) = some length

namespace Framer

variable {σ : Type} (framer : Framer σ)

variable {stream : List σ} {length : Nat}

theorem drop_shorter (found : framer.size stream = some length) : stream.length - length < stream.length := by
  have positive := framer.positive found
  have within := framer.within found
  omega

def split (stream : List σ) : List (List σ) × List σ :=
  match found : framer.size stream with
  | none => ([], stream)
  | some length =>
      have _shorter := framer.drop_shorter found
      let behind := split (stream.drop length)
      (stream.take length :: behind.1, behind.2)
termination_by stream.length

def rest (stream : List σ) : List σ := (framer.split stream).2

theorem stable (found : framer.size stream = some length)
    (more : List σ) : framer.size (stream ++ more) = some length := by
  have whole := framer.framed (stream.drop length ++ more) found
  rwa [← append_assoc, take_append_drop] at whole

theorem split_of_none (waiting : framer.size stream = none) : framer.split stream = ([], stream) := by
  rw [split]
  split
  · rfl
  · next length found => rw [waiting] at found; cases found

theorem split_of_some (found : framer.size stream = some length) : framer.split stream =
      (stream.take length :: (framer.split (stream.drop length)).1, (framer.split (stream.drop length)).2) := by
  rw [split]
  split
  · next waiting => rw [found] at waiting; cases waiting
  · next other same =>
    rw [found] at same
    cases same
    rfl

theorem size_rest (stream : List σ) : framer.size (framer.rest stream) = none := by
  induction stream using split.induct framer with
  | case1 stream waiting => rw [rest, framer.split_of_none waiting]; exact waiting
  | case2 stream length found _ ih => rw [rest, framer.split_of_some found]; exact ih

/-- The frames of a longer stream: those of its front, then those that what is left
of the front makes together with what follows. -/
theorem split_append (front more : List σ) : framer.split (front ++ more) =
      ((framer.split front).1 ++ (framer.split (framer.rest front ++ more)).1,
        framer.rest (framer.rest front ++ more)) := by
  induction front using split.induct framer with
  | case1 front waiting => rw [rest, framer.split_of_none waiting]; rfl
  | case2 front length found _ ih =>
    have within := framer.within found
    simp [rest, framer.split_of_some (framer.stable found more), framer.split_of_some found, take_append_of_le_length within, drop_append_of_le_length within, ih]

theorem split_frames_append (stream more : List σ) : framer.split ((framer.split stream).1.flatten ++ more) =
      ((framer.split stream).1 ++ (framer.split more).1, framer.rest more) := by
  induction stream using split.induct framer with
  | case1 stream waiting => rw [framer.split_of_none waiting]; rfl
  | case2 stream length found _ ih =>
    have within := framer.within found
    have size := framer.framed ((framer.split (stream.drop length)).1.flatten ++ more) found
    have exact : (stream.take length).length = length := by rw [length_take]; omega
    simp [framer.split_of_some found, framer.split_of_some size, take_left' exact, drop_left' exact, ih]

theorem flatten_split (stream : List σ) : (framer.split stream).1.flatten ++ framer.rest stream = stream := by
  induction stream using split.induct framer with
  | case1 stream waiting => rw [rest, framer.split_of_none waiting]; rfl
  | case2 stream length found _ ih =>
    rw [rest] at ih
    simp [rest, framer.split_of_some found, ih]

theorem rest_append (front more : List σ) : framer.rest (front ++ more) = framer.rest (framer.rest front ++ more) := by
  rw [rest, split_append]

theorem rest_of_none (waiting : framer.size stream = none) : framer.rest stream = stream := by
  rw [rest, framer.split_of_none waiting]

theorem size_of_prefix {front more : List σ} (waiting : framer.size (front ++ more) = none) :
    framer.size front = none := by
  cases found : framer.size front with
  | none => rfl
  | some length => rw [framer.stable found more] at waiting; cases waiting

end Framer

end Library
