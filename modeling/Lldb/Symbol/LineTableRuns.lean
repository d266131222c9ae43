import Lldb.Symbol.LineTableLink

/-! The linked table as a whole: every entry that is not a terminal one is an entry of the original
table and ends where that ends or where its range does, and no entry in a range is left out.
-/

set_option autoImplicit false

namespace Lldb.LineTable

open List

variable {map : FileRangeMap} {entries : List Entry}

structure Sound (map : FileRangeMap) (entries : List Entry) (linking : Linking) (previous : Option Entry) : Prop
    extends Behind map entries linking previous where
  chained : Chained map.entries entries linking.entries
  linked : linking.sequence.IsChain (Moved map.entries entries)

def Succeeds (entries : List Entry) (previous : Option Entry) (entry : Entry) : Prop :=
  ∀ last ∈ previous, last.isTerminalEntry = false → Extent entries last entry

variable {entry : Entry} {linking : Linking} {previous : Option Entry} {table : List Entry}

theorem chained_concat {sequence : List Entry} (linked : sequence.IsChain (Moved map.entries entries))
    (joins : ∀ last ∈ sequence.getLast?, Moved map.entries entries last entry)
      (terminal : entry.isTerminalEntry = true) :
    Chained map.entries entries (sequence ++ [entry]) where
  linked := by
    refine (isChain_append.mpr ⟨linked, isChain_singleton _, fun last there next member => ?_⟩).imp
      fun _ _ => .inr
    cases member
    exact joins last there
  ends last there := by
    rw [getLast?_concat] at there
    cases there
    exact terminal

theorem Cut.sound {linking : Linking} {previous : Option Entry} {entry : Entry} {table rest : List Entry}
    (sound : Sound map entries linking previous) (succeeds : Succeeds entries previous entry)
    (cut : Cut map entries linking previous entry table rest) :
    Chained map.entries entries table ∧ rest.IsChain (Moved map.entries entries) ∧
      ∀ range, findEntryThatContains map.entries (lookup entry) = some range →
        ∀ last ∈ rest.getLast?, Moved map.entries entries last (moved range entry) := by
  cases cut with
  | idle closed =>
    refine ⟨sound.chained, sound.linked, fun _ _ last there => ?_⟩
    rw [closed.empty] at there
    cases there
  | goesOn known opened next meets =>
    rename_i last range other
    refine ⟨sound.chained, sound.linked, fun range' found end_ there => ?_⟩
    cases opened.ends.symm.trans there
    cases next.symm.trans found
    exact ⟨last, entry, range, succeeds last known opened.plain, sound.looked range opened.found, opened.inside,
      rfl, meets.symm⟩
  | ended known opened apart =>
    rename_i last range
    refine ⟨sound.chained.insert (chained_concat sound.linked (fun end_ there => ?_) rfl), List.IsChain.nil, nofun⟩
    cases opened.ends.symm.trans there
    exact ⟨last, entry, range, succeeds last known opened.plain, sound.looked range opened.found,
      opened.inside, rfl, rfl⟩

theorem Cut.rows {rest : List Entry}
    (cut : Cut map entries linking previous entry table rest) : ∀ row ∈ rest, row.isTerminalEntry = false := by
  cases cut with
  | idle closed =>
    rw [closed.empty]
    exact fun _ there => absurd there not_mem_nil
  | goesOn _ opened _ _ => exact opened.rows
  | ended _ _ _ => exact fun _ there => absurd there not_mem_nil

theorem Sound.step {linking : Linking} {previous : Option Entry} {entry : Entry}
    (sound : Sound map entries linking previous)
    (succeeds : Succeeds entries previous entry) : Sound map entries (linking.step map.entries entry) (some entry) := by
  obtain ⟨table, rest, cut, looked, links⟩ := step_cases sound.toBehind entry
  obtain ⟨chained, linked, joins⟩ := cut.sound sound succeeds
  have member : ∀ range ∈ (linking.step map.entries entry).fileRangeEntry, range ∈ map.entries := by
    rw [looked]
    exact fun range found => (map.find_iff.mp found).1
  cases next : findEntryThatContains map.entries (lookup entry) with
  | none =>
    rw [next] at links
    obtain ⟨-, same, closed⟩ := links
    refine ⟨⟨member, .inl closed⟩, same ▸ chained, ?_⟩
    rw [closed.empty]
    exact List.IsChain.nil
  | some range =>
    rw [next] at links looked
    have joined := joins range next
    simp only at links
    by_cases terminal : entry.isTerminalEntry = true
    · rw [if_pos terminal] at links
      obtain ⟨same, closed⟩ := links
      refine ⟨⟨member, .inl closed⟩, ?_, ?_⟩
      · rw [same]
        exact chained.insert (chained_concat linked joined terminal)
      · rw [closed.empty]
        exact List.IsChain.nil
    · rw [if_neg terminal] at links
      obtain ⟨same, sequence, marked⟩ := links
      have plain : entry.isTerminalEntry = false := by simpa using terminal
      have inside := (map.find_iff.mp next).2
      rw [lookup, if_neg terminal] at inside
      refine ⟨⟨member, .inr ⟨entry, range, rfl, plain, inside, looked, marked, ?_, ?_⟩⟩, same ▸ chained, ?_⟩
      · rw [sequence]
        intro row there
        rcases mem_append.mp there with old | new
        · exact cut.rows row old
        · rw [mem_singleton.mp new]
          exact plain
      · simp [sequence]
      · rw [sequence]
        refine isChain_append.mpr ⟨linked, isChain_singleton _, fun last there other is => ?_⟩
        cases is
        exact joined last there

theorem sound_start : Sound map entries Linking.start none where
  looked _ none_ := by cases none_
  sequence := .inl ⟨rfl, rfl⟩
  chained := Chained.empty
  linked := List.IsChain.nil

theorem Sound.run (done : List Entry) {todo : List Entry} (split : entries = done ++ todo)
    (sound : Sound map entries linking done.getLast?) :
    Sound map entries (todo.foldl (Linking.step map.entries) linking) entries.getLast? := by
  induction todo generalizing done linking with
  | nil =>
    rw [append_nil] at split
    exact split ▸ sound
  | cons entry todo ih =>
    have succeeds : Succeeds entries done.getLast? entry := by
      intro last ended plain
      obtain ⟨front, rfl⟩ := getLast?_eq_some_iff.mp ended
      exact ⟨plain, front, todo, by rw [split, append_assoc]; rfl⟩
    have after := sound.step succeeds
    apply ih (done ++ [entry])
    · simp [split]
    · rw [getLast?_concat]
      exact after

theorem sound_linkLineTable (ends : ∀ last ∈ entries.getLast?, last.isTerminalEntry = true) :
    Chained map.entries entries (linkLineTable map.entries entries) ∧
      (entries.foldl (Linking.step map.entries) Linking.start).sequence = [] := by
  have start : Sound map entries Linking.start [].getLast? := sound_start
  have sound := start.run [] (nil_append entries).symm
  refine ⟨sound.chained, ?_⟩
  rcases sound.sequence with closed | ⟨last, range, known, opened⟩
  · exact closed.empty
  · have terminal := ends last known
    rw [opened.plain] at terminal
    cases terminal

/-! No entry in a range is left out. -/

theorem mem_insertSequence (ends : ∀ last ∈ table.getLast?, last.isTerminalEntry = true)
    (sequence : List Entry) (entry : Entry) : entry ∈ insertSequence table sequence ↔
      entry ∈ table ∨ entry ∈ sequence := by
  obtain ⟨front, back, rfl, inserted, -⟩ := insertSequence_split ends sequence
  rw [inserted]
  simp only [mem_append]
  constructor
  · rintro ((inFront | new) | inBack)
    · exact .inl (.inl inFront)
    · exact .inr new
    · exact .inl (.inr inBack)
  · rintro ((inFront | inBack) | new)
    · exact .inl (.inl inFront)
    · exact .inr inBack
    · exact .inl (.inr new)

def Holds (linking : Linking) (entry : Entry) : Prop := entry ∈ linking.entries ∨ entry ∈ linking.sequence

theorem Cut.keeps {row : Entry} {rest : List Entry}
    (sound : Sound map entries linking previous) (cut : Cut map entries linking previous entry table rest)
    (holds : Holds linking row) : row ∈ table ∨ row ∈ rest := by
  cases cut with
  | idle _ => exact holds
  | goesOn _ _ _ _ => exact holds
  | ended _ _ _ =>
    rw [mem_insertSequence sound.chained.ends]
    exact .inl (holds.imp_right fun inside => mem_append_left _ inside)

theorem Sound.holds_step (sound : Sound map entries linking previous) (succeeds : Succeeds entries previous entry) :
    (∀ row, Holds linking row → Holds (linking.step map.entries entry) row) ∧
      ∀ range, findEntryThatContains map.entries (lookup entry) = some range →
        Holds (linking.step map.entries entry) (moved range entry) := by
  obtain ⟨table, rest, cut, -, links⟩ := step_cases sound.toBehind entry
  have chained := (cut.sound sound succeeds).1
  have kept (row : Entry) (holds : Holds linking row) := cut.keeps sound holds
  cases next : findEntryThatContains map.entries (lookup entry) with
  | none =>
    rw [next] at links
    obtain ⟨rfl, same, -⟩ := links
    refine ⟨fun row holds => .inl ?_, nofun⟩
    rw [same]
    exact (kept row holds).resolve_right not_mem_nil
  | some range =>
    rw [next] at links
    simp only at links
    by_cases terminal : entry.isTerminalEntry = true
    · rw [if_pos terminal] at links
      have member := mem_insertSequence chained.ends (rest ++ [moved range entry])
      refine ⟨fun row holds => .inl ?_, fun _ found => .inl ?_⟩
      · rw [links.1, member]
        exact (kept row holds).imp_right fun inside => mem_append_left _ inside
      · cases found
        rw [links.1, member]
        exact .inr (mem_append_right _ mem_cons_self)
    · rw [if_neg terminal] at links
      obtain ⟨same, sequence, -⟩ := links
      refine ⟨fun row holds => ?_, fun _ found => .inr ?_⟩
      · rw [Holds, same, sequence]
        exact (kept row holds).imp_right fun inside => mem_append_left _ inside
      · cases found
        rw [sequence]
        exact mem_append_right _ mem_cons_self

theorem Sound.holds_run (done : List Entry) {todo : List Entry} (split : entries = done ++ todo)
    (sound : Sound map entries linking done.getLast?) :
    (∀ row, Holds linking row → Holds (todo.foldl (Linking.step map.entries) linking) row) ∧
      ∀ row ∈ todo, ∀ range, findEntryThatContains map.entries (lookup row) = some range →
        Holds (todo.foldl (Linking.step map.entries) linking) (moved range row) := by
  induction todo generalizing done linking with
  | nil => exact ⟨fun _ holds => holds, fun _ there => absurd there not_mem_nil⟩
  | cons entry todo ih =>
    have succeeds : Succeeds entries done.getLast? entry := by
      intro last ended plain
      obtain ⟨front, rfl⟩ := getLast?_eq_some_iff.mp ended
      exact ⟨plain, front, todo, by rw [split, append_assoc]; rfl⟩
    have after : Sound map entries (linking.step map.entries entry) (done ++ [entry]).getLast? := by
      rw [getLast?_concat]
      exact sound.step succeeds
    obtain ⟨kept, added⟩ := sound.holds_step succeeds
    obtain ⟨later, others⟩ := ih (done ++ [entry]) (by rw [split, append_assoc]; rfl) after
    refine ⟨fun row holds => later row (kept row holds), fun row there range found => ?_⟩
    rcases mem_cons.mp there with rfl | behind
    · exact later _ (added range found)
    · exact others row behind range found

theorem mem_linkLineTable (ends : ∀ last ∈ entries.getLast?, last.isTerminalEntry = true) {row : Entry}
    (there : row ∈ entries)
    {range : FileRange} (found : findEntryThatContains map.entries (lookup row) = some range) :
    moved range row ∈ linkLineTable map.entries entries := by
  have start : Sound map entries Linking.start [].getLast? := sound_start
  have holds := (start.holds_run [] (nil_append entries).symm).2 row there range found
  exact holds.resolve_right fun inside => by
    rw [(sound_linkLineTable ends).2] at inside
    cases inside

end Lldb.LineTable
