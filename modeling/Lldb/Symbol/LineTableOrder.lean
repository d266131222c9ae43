import Lldb.Symbol.LineTableRuns
import Mathlib.Data.List.TakeWhile

/-! The order of the linked table where every entry that meets a range begins in it: each sequence is
then moved to addresses that no other sequence has been moved to.
-/

set_option autoImplicit false

namespace Lldb.LineTable

open List Option

/-- What may stand before what: addresses rise, or a sequence begins where the one before ends. -/
def Precedes (entry other : Entry) : Prop :=
  entry.fileAddr < other.fileAddr ∨
    entry.fileAddr = other.fileAddr ∧ entry.isTerminalEntry = true ∧ other.isTerminalEntry = false

abbrev Sorted (table : List Entry) : Prop := table.Pairwise Precedes

structure WellFormed (entries : List Entry) : Prop where
  starts : ∀ first ∈ entries.head?, first.isTerminalEntry = false
  next : entries.IsChain fun entry next =>
    if entry.isTerminalEntry then entry.fileAddr ≤ next.fileAddr ∧ next.isTerminalEntry = false
    else entry.fileAddr < next.fileAddr
  ends : ∀ last ∈ entries.getLast?, last.isTerminalEntry = true

def Begins (map : FileRangeMap) (entries : List Entry) : Prop :=
  ∀ entry next, Extent entries entry next → ∀ range ∈ map.entries,
    range.base < next.fileAddr → entry.fileAddr < range.rangeEnd → range.contains entry.fileAddr = true

/-- From one entry to the next are the addresses that a part of a range, within bounds, is moved to. -/
def Image (map : FileRangeMap) (low high : Nat) (entry next : Entry) : Prop :=
  ∃ range ∈ map.entries, ∃ start stop, low ≤ start ∧ start < stop ∧ stop ≤ high ∧ range.base ≤ start ∧
    stop ≤ range.rangeEnd ∧
    entry.fileAddr = range.link start ∧ next.fileAddr = range.link stop

variable {map : FileRangeMap}

variable {entry next : Entry} {address bound : Nat} {table : List Entry} {linking : Linking} {range : FileRange}

theorem Image.mono {low high less more : Nat} (image : Image map low high entry next) (down : less ≤ low)
    (up : high ≤ more) : Image map less more entry next := by
  obtain ⟨range, there, start, stop, above, rises, below, rest⟩ := image
  exact ⟨range, there, start, stop, down.trans above, rises, below.trans up, rest⟩

theorem Image.lt {low high : Nat} (image : Image map low high entry next) : entry.fileAddr < next.fileAddr := by
  obtain ⟨range, -, start, stop, -, rises, -, inside, -, first, second⟩ := image
  rw [first, second]
  unfold FileRange.link
  omega

def Covered (map : FileRangeMap) (low high address : Nat) : Prop :=
  ∃ range ∈ map.entries, ∃ source, range.contains source = true ∧ low ≤ source ∧ source < high ∧
    range.link source = address

theorem Image.covered {low high : Nat} (image : Image map low high entry next)
    (reached : entry.fileAddr ≤ address) (inside : address < next.fileAddr) : Covered map low high address := by
  obtain ⟨range, there, start, stop, above, rises, below, begins, ends, first, second⟩ := image
  rw [first] at reached
  rw [second] at inside
  unfold FileRange.link at reached inside
  refine ⟨range, there, address - range.data + range.base, ?_, ?_, ?_, ?_⟩
  · rw [FileRange.contains_iff]
    omega
  · omega
  · omega
  · unfold FileRange.link
    omega

theorem Covered.apart {low middle high : Nat} (first : Covered map low middle address)
    (second : Covered map middle high address) : False := by
  obtain ⟨range, there, source, inside, -, below, moved⟩ := first
  obtain ⟨range', there', source', inside', above, -, moved'⟩ := second
  obtain ⟨-, same⟩ := map.eq_of_link there there' inside inside' (moved.trans moved'.symm)
  omega

structure Placed (map : FileRangeMap) (bound : Nat) (table : List Entry) : Prop where
  sorted : Sorted table
  images : table.IsChain fun entry next => entry.isTerminalEntry = true ∧ next.isTerminalEntry = false ∨
    entry.isTerminalEntry = false ∧ Image map 0 bound entry next
  starts : ∀ first ∈ table.head?, first.isTerminalEntry = false
  ends : ∀ last ∈ table.getLast?, last.isTerminalEntry = true

theorem Placed.boundary {front back : List Entry} (placed : Placed map bound (front ++ back))
    (outside : ¬ Covered map 0 bound address) (before : ∀ entry ∈ front, entry.fileAddr ≤ address)
    (behind : ∀ entry ∈ back, address < entry.fileAddr) :
    (∀ last ∈ front.getLast?, last.isTerminalEntry = true) ∧ ∀ first ∈ back.head?, first.isTerminalEntry = false := by
  obtain ⟨-, -, joint⟩ := isChain_append.mp placed.images
  constructor
  · intro last there
    cases first : back.head? with
    | none =>
      rw [head?_eq_none_iff] at first
      subst first
      apply placed.ends
      rwa [append_nil]
    | some next =>
      rcases joint last there next first with ⟨terminal, -⟩ | ⟨-, image⟩
      · exact terminal
      · refine absurd (image.covered (before last ?_) (behind next ?_)) outside
        · exact mem_of_getLast? there
        · exact mem_of_mem_head? first
  · intro first there
    cases last : front.getLast? with
    | none =>
      rw [getLast?_eq_none_iff] at last
      subst last
      exact placed.starts first there
    | some before_ =>
      rcases joint before_ last first there with ⟨-, plain⟩ | ⟨-, image⟩
      · exact plain
      · refine absurd (image.covered (before before_ ?_) (behind first ?_)) outside
        · exact mem_of_getLast? last
        · exact mem_of_mem_head? there

/-- What an entry of the table covers: its own address, or the one before for a terminal entry. -/
theorem Placed.covers (placed : Placed map bound table) (there : entry ∈ table) :
    (entry.isTerminalEntry = false → Covered map 0 bound entry.fileAddr) ∧
      (entry.isTerminalEntry = true → 0 < entry.fileAddr ∧ Covered map 0 bound (entry.fileAddr - 1)) := by
  obtain ⟨front, back, rfl⟩ := append_of_mem there
  obtain ⟨-, inBack, joint⟩ := isChain_append.mp placed.images
  constructor
  · intro plain
    cases back with
    | nil =>
      have terminal := placed.ends entry (by simp)
      rw [plain] at terminal
      cases terminal
    | cons next back =>
      rcases (isChain_cons_cons.mp inBack).1 with ⟨terminal, -⟩ | ⟨-, image⟩
      · rw [plain] at terminal
        cases terminal
      · exact image.covered le_rfl image.lt
  · intro terminal
    cases last : front.getLast? with
    | none =>
      rw [getLast?_eq_none_iff] at last
      subst last
      have plain := placed.starts entry rfl
      rw [terminal] at plain
      cases plain
    | some previous =>
      rcases joint previous last entry rfl with ⟨-, plain⟩ | ⟨-, image⟩
      · rw [terminal] at plain
        cases plain
      · have rises := image.lt
        exact ⟨by omega, image.covered (by omega) (by omega)⟩

structure Fresh (map : FileRangeMap) (low high : Nat) (sequence : List Entry) : Prop where
  images : sequence.IsChain fun entry next => entry.isTerminalEntry = false ∧ Image map low high entry next
  ends : ∀ last ∈ sequence.getLast?, last.isTerminalEntry = true

theorem Fresh.rises {low high : Nat} {sequence : List Entry} (fresh : Fresh map low high sequence) :
    sequence.Pairwise fun entry next => entry.fileAddr < next.fileAddr := by
  exact isChain_iff_pairwise.mp (fresh.images.imp fun _ _ image => image.2.lt)

theorem Fresh.covered {low high : Nat} {first last : Entry} {rest : List Entry}
    (fresh : Fresh map low high (first :: rest))
    (ended : (first :: rest).getLast? = some last) (reached : first.fileAddr ≤ address)
    (inside : address < last.fileAddr) : Covered map low high address := by
  induction rest generalizing first with
  | nil =>
    rw [getLast?_singleton] at ended
    cases ended
    omega
  | cons next rest ih =>
    obtain ⟨⟨-, image⟩, others⟩ := isChain_cons_cons.mp fresh.images
    by_cases early : address < next.fileAddr
    · exact image.covered reached early
    · refine ih ⟨others, fun end_ there => fresh.ends end_ ?_⟩ ended (by omega)
      rwa [getLast?_cons_cons]

theorem Sorted.addresses (sorted : Sorted table) : table.Pairwise fun entry other => entry.fileAddr ≤ other.fileAddr :=
  sorted.imp fun order => by
    rcases order with less | ⟨same, -⟩ <;> omega

theorem lessThan_of_ne {other : Entry} (different : entry.fileAddr ≠ other.fileAddr) :
    lessThan entry other = decide (entry.fileAddr < other.fileAddr) := by
  unfold lessThan
  rw [if_pos different]

theorem lessThan_of_terminal {other : Entry} (same : entry.fileAddr = other.fileAddr)
    (plain : entry.isTerminalEntry = false) (terminal : other.isTerminalEntry = true) : lessThan entry other =
      false := by
  unfold lessThan
  rw [if_neg (not_not.mpr same), if_pos (by rw [plain, terminal]; decide), plain, terminal]
  decide

/-- The upper bound of an entry that is not a terminal one, where only terminal ones have its address. -/
theorem upperBound_spec (sorted : Sorted table) (plain : entry.isTerminalEntry = false)
    (only : ∀ other ∈ table, other.fileAddr = entry.fileAddr → other.isTerminalEntry = true) :
    upperBound table entry ≤ table.length ∧
      (∀ other ∈ table.take (upperBound table entry), other.fileAddr ≤ entry.fileAddr) ∧
      ∀ other ∈ table.drop (upperBound table entry), entry.fileAddr < other.fileAddr := by
  have passes : ∀ other ∈ table, ((!lessThan entry other) = true ↔ other.fileAddr ≤ entry.fileAddr) := by
    intro other there
    by_cases same : entry.fileAddr = other.fileAddr
    · rw [lessThan_of_terminal same plain (only other there same.symm)]
      simp [same]
    · rw [lessThan_of_ne same, Bool.not_eq_true', decide_eq_false_iff_not]
      omega
  have down : ∀ earlier position, earlier ≤ position → position < table.length →
      (table[position]?.any fun other => !lessThan entry other) = true →
      (table[earlier]?.any fun other => !lessThan entry other) = true := by
    intro earlier position reached small holds
    have before : earlier < table.length := by omega
    rw [getElem?_eq_getElem small, any_some, passes _ (getElem_mem small)] at holds
    rw [getElem?_eq_getElem before, any_some, passes _ (getElem_mem before)]
    rcases eq_or_lt_of_le reached with rfl | less
    · exact holds
    · exact (pairwise_iff_getElem.mp sorted.addresses earlier position before small less).trans holds
  obtain ⟨inside, splits⟩ := Library.lowerBound_spec down
  refine ⟨inside, fun other there => ?_, fun other there => ?_⟩
  · obtain ⟨index, small, same⟩ := mem_take_iff_getElem.mp there
    have bound : index < table.length := by omega
    have holds := (splits index bound).mpr (by change index < upperBound table entry; omega)
    rw [getElem?_eq_getElem bound, any_some, passes _ (getElem_mem bound), same] at holds
    exact holds
  · obtain ⟨index, small, same⟩ := mem_drop_iff_getElem.mp there
    have fails := mt (splits (upperBound table entry + index) (by omega)).mp (by
      change ¬ upperBound table entry + index < upperBound table entry
      omega)
    rw [getElem?_eq_getElem (by omega), any_some, passes _ (getElem_mem _), same] at fails
    omega

theorem upperBound_append {front back : List Entry} (sorted : Sorted (front ++ back)) {first : Entry}
    (plain : first.isTerminalEntry = false)
    (only : ∀ other ∈ front ++ back, other.fileAddr = first.fileAddr → other.isTerminalEntry = true)
    (before : ∀ entry ∈ front, entry.fileAddr ≤ first.fileAddr)
    (behind : ∀ entry ∈ back, first.fileAddr < entry.fileAddr) :
    upperBound (front ++ back) first = front.length := by
  obtain ⟨inside, low, high⟩ := upperBound_spec sorted plain only
  generalize upperBound (front ++ back) first = pos at inside low high
  rw [length_append] at inside
  rcases lt_trichotomy pos front.length with less | same | more
  · have there : front[pos] ∈ (front ++ back).drop pos := by
      refine mem_drop_iff_getElem.mpr ⟨0, by rw [length_append]; omega, ?_⟩
      exact getElem_append_left less
    have := high _ there
    have := before _ (getElem_mem less)
    omega
  · exact same
  · have inBack : 0 < back.length := by omega
    have there : back[0] ∈ (front ++ back).take pos := by
      refine mem_take_iff_getElem.mpr ⟨front.length, by rw [length_append]; omega, ?_⟩
      simp
    have := low _ there
    have := behind _ (getElem_mem inBack)
    omega

theorem behindSequence_stays {front back : List Entry} (ends : ∀ last ∈ front.getLast?, last.isTerminalEntry = true)
    (fuel : Nat) (some_ : front.length ≠ 0) :
    behindSequence (front ++ back) (fuel + 1) front.length = front.length := by
  rw [behindSequence, if_neg]
  rw [Bool.and_eq_true, Bool.not_eq_true', not_and, Bool.not_eq_false]
  intro _
  have there := getElem?_eq_getElem (show front.length - 1 < front.length by omega)
  rw [getElem?_append_left (by omega), there]
  exact ends _ (by rw [getLast?_eq_getElem?]; exact there)

/-- A sequence is put where the addresses of a table in order get above its first one, if a sequence ends there. -/
theorem Sorted.insertSequence {front back : List Entry} (sorted : Sorted (front ++ back)) {first : Entry}
    {rest : List Entry}
    (plain : first.isTerminalEntry = false)
    (only : ∀ other ∈ front ++ back, other.fileAddr = first.fileAddr → other.isTerminalEntry = true)
    (before : ∀ entry ∈ front, entry.fileAddr ≤ first.fileAddr)
    (behind : ∀ entry ∈ back, first.fileAddr < entry.fileAddr)
    (ends : ∀ last ∈ front.getLast?, last.isTerminalEntry = true) :
    insertSequence (front ++ back) (first :: rest) = front ++ first :: rest ++ back := by
  unfold LineTable.insertSequence
  cases ended : (front ++ back).getLast? with
  | none =>
    obtain ⟨rfl, rfl⟩ := append_eq_nil_iff.mp (getLast?_eq_none_iff.mp ended)
    simp
  | some last =>
    simp only
    split
    · rename_i small
      have none_ : back = [] := by
        by_contra some_
        obtain ⟨final, isFinal⟩ := isSome_iff_exists.mp (getLast?_isSome.mpr some_)
        rw [getLast?_append, isFinal] at ended
        obtain rfl := Option.some.inj ended
        exact small (behind final (mem_of_getLast? isFinal))
      subst none_
      simp
    · rw [upperBound_append sorted plain only before behind]
      have stays : (if front.length ≠ 0 then behindSequence (front ++ back) (front ++ back).length front.length else
          front.length) = front.length := by
        split
        · rename_i positive
          obtain ⟨fuel, enough⟩ : ∃ fuel, (front ++ back).length = fuel + 1 :=
            ⟨(front ++ back).length - 1, by rw [length_append]; omega⟩
          rw [enough, behindSequence_stays ends fuel positive]
        · rfl
      rw [stays, take_left, drop_left]

theorem takeWhile_addresses (sorted : Sorted table) (address : Nat) :
    (∀ entry ∈ table.takeWhile (·.fileAddr ≤ address), entry.fileAddr ≤ address) ∧
      ∀ entry ∈ table.dropWhile (·.fileAddr ≤ address), address < entry.fileAddr := by
  refine ⟨fun entry there => ?_, ?_⟩
  · have small := mem_takeWhile_imp there
    rwa [decide_eq_true_eq] at small
  induction table with
  | nil => nofun
  | cons head table ih =>
    have order := pairwise_cons.mp sorted.addresses
    rw [dropWhile_cons]
    split
    · exact ih (pairwise_cons.mp sorted).2
    · rename_i above
      intro entry there
      rw [decide_eq_true_eq] at above
      rcases mem_cons.mp there with rfl | later
      · omega
      · have := order.1 entry later
        omega

theorem insertSequence_place (placed : Placed map bound table) {first : Entry} {rest : List Entry}
    (plain : first.isTerminalEntry = false) (outside : ¬ Covered map 0 bound first.fileAddr) :
    ∃ front back, table = front ++ back ∧ insertSequence table (first :: rest) = front ++ first :: rest ++ back ∧
      (∀ entry ∈ front, entry.fileAddr ≤ first.fileAddr) ∧ ∀ entry ∈ back, first.fileAddr < entry.fileAddr := by
  have only : ∀ other ∈ table, other.fileAddr = first.fileAddr → other.isTerminalEntry = true := by
    intro other there same
    by_contra plain'
    rw [Bool.not_eq_true] at plain'
    exact outside (same ▸ (placed.covers there).1 plain')
  obtain ⟨before, behind⟩ := takeWhile_addresses placed.sorted first.fileAddr
  have split : table.takeWhile (·.fileAddr ≤ first.fileAddr) ++ table.dropWhile (·.fileAddr ≤ first.fileAddr) = table :=
    takeWhile_append_dropWhile
  rw [← split] at placed only ⊢
  have ends := (placed.boundary outside before behind).1
  exact ⟨_, _, rfl, placed.sorted.insertSequence plain only before behind ends, before, behind⟩

/-- Every entry of a sequence but the last is not a terminal one and is before the last. -/
theorem Fresh.entry_cases {low high : Nat} {sequence : List Entry} (fresh : Fresh map low high sequence) {last : Entry}
    (ended : sequence.getLast? = some last) (there : entry ∈ sequence) :
    entry.isTerminalEntry = false ∧ entry.fileAddr < last.fileAddr ∨ entry = last := by
  obtain ⟨front, rfl⟩ := getLast?_eq_some_iff.mp ended
  rcases mem_append.mp there with before | isLast
  · left
    refine ⟨?_, (pairwise_append.mp fresh.rises).2.2 entry before last mem_cons_self⟩
    obtain ⟨earlier, later, rfl⟩ := append_of_mem before
    have chain := fresh.images
    rw [append_assoc, isChain_append] at chain
    cases later with
    | nil => exact (isChain_cons_cons.mp chain.2.1).1.1
    | cons next later => exact (isChain_cons_cons.mp chain.2.1).1.1
  · exact .inr (mem_singleton.mp isLast)

section

variable {low high : Nat} {front back rest : List Entry} {first second last : Entry}
  (fresh : Fresh map low high (first :: second :: rest)) (ended : (first :: second :: rest).getLast? = some last)

include fresh ended

theorem Fresh.within : first.fileAddr < last.fileAddr := by
  have plain := (isChain_cons_cons.mp fresh.images).1.1
  rcases fresh.entry_cases ended mem_cons_self with ⟨-, less⟩ | same
  · exact less
  · have terminal := fresh.ends last ended
    rw [← same, plain] at terminal
    cases terminal

theorem Fresh.not_covered {address : Nat} (reached : first.fileAddr ≤ address) (inside : address < last.fileAddr) :
    ¬ Covered map 0 low address := fun before => before.apart (fresh.covered ended reached inside)

theorem Placed.precedes_fresh (placed : Placed map low (front ++ back))
    (before : ∀ entry ∈ front, entry.fileAddr ≤ first.fileAddr) :
    ∀ entry ∈ front, ∀ other ∈ first :: second :: rest, Precedes entry other := by
  intro entry there other member
  have below := before entry there
  have within := fresh.within ended
  rcases mem_cons.mp member with rfl | later
  · by_cases same : entry.fileAddr = other.fileAddr
    · refine .inr ⟨same, ?_, (isChain_cons_cons.mp fresh.images).1.1⟩
      by_contra plain
      rw [Bool.not_eq_true] at plain
      exact fresh.not_covered ended same.ge (by omega) ((placed.covers (mem_append_left _ there)).1 plain)
    · exact .inl (by omega)
  · have above := (pairwise_cons.mp fresh.rises).1 other later
    exact .inl (by omega)

theorem Placed.fresh_precedes (placed : Placed map low (front ++ back))
    (behind : ∀ entry ∈ back, first.fileAddr < entry.fileAddr) :
    ∀ entry ∈ first :: second :: rest, ∀ other ∈ back, Precedes entry other := by
  intro entry there other member
  have above := behind other member
  obtain ⟨own, previous⟩ := placed.covers (mem_append_right _ member)
  cases kind : other.isTerminalEntry with
  | true =>
    obtain ⟨positive, inside⟩ := previous kind
    have beyond : last.fileAddr < other.fileAddr := by
      by_contra small
      exact fresh.not_covered ended (by omega) (by omega) inside
    rcases fresh.entry_cases ended there with ⟨-, less⟩ | rfl
    · exact .inl (by omega)
    · exact .inl beyond
  | false =>
    have beyond : last.fileAddr ≤ other.fileAddr := by
      by_contra small
      exact fresh.not_covered ended above.le (by omega) (own kind)
    rcases fresh.entry_cases ended there with ⟨-, less⟩ | rfl
    · exact .inl (by omega)
    · rcases eq_or_lt_of_le beyond with same | less
      · exact .inr ⟨same, fresh.ends entry ended, kind⟩
      · exact .inl less

end

theorem Placed.insert {low high : Nat} {table sequence : List Entry} (placed : Placed map low table)
    (fresh : Fresh map low high sequence) (two : 2 ≤ sequence.length) (up : low ≤ high) :
    Placed map high (insertSequence table sequence) := by
  obtain ⟨first, second, rest, rfl⟩ : ∃ first second rest, sequence = first :: second :: rest := by
    match sequence, two with
    | first :: second :: rest, _ => exact ⟨first, second, rest, rfl⟩
  obtain ⟨last, ended⟩ : ∃ last, (first :: second :: rest).getLast? = some last :=
    ⟨_, getLast?_eq_some_getLast (cons_ne_nil _ _)⟩
  have terminal := fresh.ends last ended
  have plain := (isChain_cons_cons.mp fresh.images).1.1
  have outside := fresh.not_covered ended le_rfl (fresh.within ended)
  obtain ⟨front, back, rfl, inserted, before, behind⟩ := insertSequence_place placed plain outside
  obtain ⟨ends, starts⟩ := placed.boundary outside before behind
  obtain ⟨frontSorted, backSorted, across⟩ := pairwise_append.mp placed.sorted
  obtain ⟨inFront, inBack, -⟩ := isChain_append.mp placed.images
  have wider : ∀ entry next : Entry, (entry.isTerminalEntry = true ∧ next.isTerminalEntry = false ∨
      entry.isTerminalEntry = false ∧ Image map 0 low entry next) →
        (entry.isTerminalEntry = true ∧ next.isTerminalEntry = false ∨
      entry.isTerminalEntry = false ∧ Image map 0 high entry next) := fun _ _ joint =>
    joint.imp_right fun image => ⟨image.1, image.2.mono le_rfl up⟩
  rw [inserted]
  refine ⟨?_, ?_, ?_, ?_⟩
  · rw [Sorted, pairwise_append, pairwise_append]
    refine ⟨⟨frontSorted, fresh.rises.imp .inl, placed.precedes_fresh fresh ended before⟩, backSorted,
      fun entry there other member => ?_⟩
    rcases mem_append.mp there with inFront | inSequence
    · exact across entry inFront other member
    · exact placed.fresh_precedes fresh ended behind entry inSequence other member
  · rw [isChain_append, isChain_append]
    refine ⟨⟨inFront.imp wider, fresh.images.imp fun _ _ image => .inr ?_, ?_⟩, inBack.imp wider, ?_⟩
    · exact ⟨image.1, image.2.mono (Nat.zero_le _) le_rfl⟩
    · intro entry there next member
      cases member
      exact .inl ⟨ends entry there, plain⟩
    · intro entry there next member
      rw [getLast?_append, ended] at there
      cases there
      exact .inl ⟨terminal, starts next member⟩
  · intro entry there
    cases front with
    | nil =>
      cases there
      exact plain
    | cons head front =>
      cases there
      exact placed.starts _ rfl
  · refine ends_append (ends_append ends fresh.ends) fun entry there => placed.ends entry ?_
    simp [show back.getLast? = some entry from there]

/-! The loop. -/

variable {entries : List Entry}

structure Comes (entries : List Entry) (previous : Option Entry) (entry : Entry) : Prop where
  succeeds : Succeeds entries previous entry
  rises : ∀ last ∈ previous, last.fileAddr ≤ entry.fileAddr
  extends_ : ∀ last ∈ previous, last.isTerminalEntry = false → last.fileAddr < entry.fileAddr
  ends : entry.isTerminalEntry = true → ∃ last ∈ previous, last.isTerminalEntry = false

theorem WellFormed.comes (formed : WellFormed entries) {done todo : List Entry}
    (split : entries = done ++ entry :: todo) : Comes entries done.getLast? entry := by
  have chain := formed.next
  rw [split] at chain
  have joint := (isChain_append.mp chain).2.2
  refine ⟨fun last ended plain => ?_, fun last ended => ?_, fun last ended plain => ?_, fun terminal => ?_⟩
  · obtain ⟨front, rfl⟩ := getLast?_eq_some_iff.mp ended
    exact ⟨plain, front, todo, by rw [split, append_assoc]; rfl⟩
  · have order := joint last ended entry rfl
    split at order
    · exact order.1
    · exact order.le
  · have order := joint last ended entry rfl
    rw [plain] at order
    exact order
  · cases ended : done.getLast? with
    | none =>
      rw [getLast?_eq_none_iff] at ended
      have plain := formed.starts entry (by rw [split, ended]; rfl)
      rw [terminal] at plain
      cases plain
    | some last =>
      refine ⟨last, rfl, ?_⟩
      have order := joint last ended entry rfl
      by_contra other
      rw [Bool.not_eq_false] at other
      rw [if_pos other, terminal] at order
      cases order.2

structure InOrder (map : FileRangeMap) (low : Nat) (linking : Linking) (previous : Option Entry) : Prop where
  placed : Placed map low linking.entries
  images : ∀ last ∈ previous, linking.sequence.IsChain fun entry next =>
    entry.isTerminalEntry = false ∧ Image map low last.fileAddr entry next
  above : ∀ last ∈ previous, low ≤ last.fileAddr
  looked : ∀ last ∈ previous, linking.fileRangeEntry = findEntryThatContains map.entries (lookup last)
  linked : ∀ last ∈ previous, last.isTerminalEntry = false → linking.fileRangeEntry ≠ none → linking.sequence ≠ []

theorem Begins.found (begins : Begins map entries) {last entry : Entry} (extent : Extent entries last entry)
    (rises : last.fileAddr < entry.fileAddr) {range : FileRange} (terminal : entry.isTerminalEntry = true)
    (found : findEntryThatContains map.entries (lookup entry) = some range) :
    range ∈ map.entries ∧ range.contains last.fileAddr = true ∧ entry.fileAddr ≤ range.rangeEnd := by
  obtain ⟨there, inside⟩ := map.find_iff.mp found
  rw [FileRange.contains_iff, lookup, if_pos terminal] at inside
  exact ⟨there, begins last entry extent range there (by omega) (by omega), by omega⟩

theorem Open.image {last : Entry} {low : Nat}
    (opened : Open entries linking last range) (there : range ∈ map.entries) (above : low ≤ last.fileAddr)
    (rises : last.fileAddr < entry.fileAddr) (ends : next.fileAddr = range.link (min entry.fileAddr range.rangeEnd)) :
    Image map low entry.fileAddr (moved range last) next := by
  have inside := FileRange.contains_iff.mp opened.inside
  exact ⟨range, there, last.fileAddr, min entry.fileAddr range.rangeEnd,
    above, by omega, by omega, inside.1, by omega, rfl, ends⟩

theorem Open.fresh {previous : Option Entry} {last : Entry} {low : Nat}
    (order : InOrder map low linking previous) (known : previous = some last) (opened : Open entries linking last range)
    (there : range ∈ map.entries) (rises : last.fileAddr < entry.fileAddr)
    (ends : next.fileAddr = range.link (min entry.fileAddr range.rangeEnd)) :
    (linking.sequence ++ [next]).IsChain fun row following =>
      row.isTerminalEntry = false ∧ Image map low entry.fileAddr row following := by
  refine isChain_append.mpr
    ⟨(order.images last known).imp fun _ _ image => ⟨image.1, image.2.mono le_rfl rises.le⟩,
    isChain_singleton _, fun row ended following is => ?_⟩
  cases opened.ends.symm.trans ended
  cases is
  exact ⟨opened.plain, opened.image there (order.above last known) rises ends⟩

theorem Open.nonempty {last : Entry} (opened : Open entries linking last range) : 0 < linking.sequence.length := by
  apply length_pos_of_ne_nil
  intro none_
  have ends := opened.ends
  rw [none_] at ends
  cases ends

theorem Cut.inOrder {low : Nat} {previous : Option Entry} {rest : List Entry}
    (sound : Sound map entries linking previous) (order : InOrder map low linking previous)
      (begins : Begins map entries)
    (comes : Comes entries previous entry) (start : low ≤ entry.fileAddr)
    (cut : Cut map entries linking previous entry table rest) :
    ∃ next ≤ entry.fileAddr, Placed map next table ∧
      ∀ range, findEntryThatContains map.entries (lookup entry) = some range →
        (rest ++ [moved range entry]).IsChain (fun row following =>
          row.isTerminalEntry = false ∧ Image map next entry.fileAddr row following) ∧
        (entry.isTerminalEntry = true → rest ≠ []) := by
  cases cut with
  | idle closed =>
    refine ⟨low, start, order.placed, fun range found => ⟨?_, fun terminal => ?_⟩⟩
    · rw [closed.empty]
      exact isChain_singleton _
    · obtain ⟨last, known, plain⟩ := comes.ends terminal
      obtain ⟨there, inside, -⟩ :=
        begins.found (comes.succeeds last known plain) (comes.extends_ last known plain) terminal found
      refine order.linked last known plain ?_
      rw [order.looked last known, lookup, if_neg (ne_true_of_eq_false plain), Nat.sub_zero,
        map.find_of_contains there inside]
      exact some_ne_none _
  | goesOn known opened next meets =>
    rename_i last range other
    have rises := comes.extends_ last known opened.plain
    refine ⟨low, start, order.placed, fun range' found => ⟨?_, fun _ => ne_nil_of_length_pos opened.nonempty⟩⟩
    cases next.symm.trans found
    exact opened.fresh order known (sound.looked range opened.found) rises meets.symm
  | ended known opened apart =>
    rename_i last range
    have rises := comes.extends_ last known opened.plain
    have there := sound.looked range opened.found
    have images : (linking.sequence ++ [terminator range last entry]).IsChain fun row following =>
        row.isTerminalEntry = false ∧ Image map low entry.fileAddr row following :=
          opened.fresh order known there rises rfl
    have fresh : Fresh map low entry.fileAddr (linking.sequence ++ [terminator range last entry]) := by
      refine ⟨images, fun row ended => ?_⟩
      rw [getLast?_concat] at ended
      cases ended
      rfl
    have two : 2 ≤ (linking.sequence ++ [terminator range last entry]).length := by
      have := opened.nonempty
      rw [length_append, length_singleton]
      omega
    refine ⟨entry.fileAddr, le_rfl, order.placed.insert fresh two start, fun other found =>
      ⟨isChain_singleton _, fun terminal => ?_⟩⟩
    -- the end of an entry that was linked is in no other range
    obtain ⟨otherThere, inside, ends⟩ := begins.found (comes.succeeds last known opened.plain) rises terminal found
    have same := map.eq_of_contains otherThere there inside opened.inside
    subst same
    exact absurd (by rw [min_eq_left ends]) (apart other found)

theorem InOrder.step {low : Nat} {linking : Linking} {previous : Option Entry} {entry : Entry}
    (sound : Sound map entries linking previous) (order : InOrder map low linking previous)
      (begins : Begins map entries)
    (comes : Comes entries previous entry) (start : low ≤ entry.fileAddr) :
    ∃ next, InOrder map next (linking.step map.entries entry) (some entry) := by
  obtain ⟨table, rest, cut, looked, links⟩ := step_cases sound.toBehind entry
  obtain ⟨next, bound, placed, goesOn⟩ := cut.inOrder sound order begins comes start
  have same : ∀ last ∈ some entry, (linking.step map.entries entry).fileRangeEntry =
      findEntryThatContains map.entries (lookup last) := by
    intro last is
    cases is
    exact looked
  have above : ∀ last ∈ some entry, next ≤ last.fileAddr := by
    intro last is
    cases is
    exact bound
  cases found : findEntryThatContains map.entries (lookup entry) with
  | none =>
    rw [found] at links looked
    obtain ⟨-, table', closed⟩ := links
    refine ⟨next, table' ▸ placed, fun last is => ?_, above, same, fun last is plain linked => absurd looked linked⟩
    rw [closed.empty]
    exact List.IsChain.nil
  | some range =>
    rw [found] at links
    obtain ⟨images, two⟩ := goesOn range found
    simp only at links
    by_cases terminal : entry.isTerminalEntry = true
    · rw [if_pos terminal] at links
      obtain ⟨table', closed⟩ := links
      have fresh : Fresh map next entry.fileAddr (rest ++ [moved range entry]) := by
        refine ⟨images, fun row ended => ?_⟩
        rw [getLast?_concat] at ended
        cases ended
        exact terminal
      have length : 2 ≤ (rest ++ [moved range entry]).length := by
        have := length_pos_of_ne_nil (two terminal)
        rw [length_append, length_singleton]
        omega
      refine ⟨entry.fileAddr, ?_, fun last is => ?_, fun last is => ?_, same, fun last is plain => ?_⟩
      · rw [table']
        exact placed.insert fresh length bound
      · rw [closed.empty]
        exact List.IsChain.nil
      · cases is
        exact le_rfl
      · cases is
        rw [terminal] at plain
        cases plain
    · rw [if_neg terminal] at links
      obtain ⟨table', sequence, -⟩ := links
      refine ⟨next, table' ▸ placed, fun last is => ?_, above, same, fun last is _ _ => ?_⟩
      · cases is
        rw [sequence]
        exact images
      · rw [sequence]
        exact append_ne_nil_of_right_ne_nil _ (cons_ne_nil _ _)

theorem inOrder_start : InOrder map 0 Linking.start none where
  placed := ⟨List.Pairwise.nil, List.IsChain.nil, nofun, nofun⟩
  images := nofun
  above := nofun
  looked := nofun
  linked := nofun

theorem InOrder.run (begins : Begins map entries) (formed : WellFormed entries) (done : List Entry) {todo : List Entry}
    (split : entries = done ++ todo) {low : Nat} (sound : Sound map entries linking done.getLast?)
    (order : InOrder map low linking done.getLast?) (start : done = [] → low = 0) :
    ∃ next, InOrder map next (todo.foldl (Linking.step map.entries) linking) entries.getLast? := by
  induction todo generalizing done low linking with
  | nil =>
    rw [append_nil] at split
    rw [split]
    exact ⟨low, order⟩
  | cons entry todo ih =>
    have comes := formed.comes split
    have bound : low ≤ entry.fileAddr := by
      cases ended : done.getLast? with
      | none =>
        rw [start (getLast?_eq_none_iff.mp ended)]
        exact Nat.zero_le _
      | some last => exact (order.above last ended).trans (comes.rises last ended)
    obtain ⟨next, after⟩ := order.step sound begins comes bound
    have soundAfter := sound.step comes.succeeds
    have ended : (done ++ [entry]).getLast? = some entry := getLast?_concat
    rw [← ended] at after soundAfter
    exact ih (done ++ [entry]) (by rw [split, append_assoc]; rfl) soundAfter after
      fun none_ => absurd none_ (append_ne_nil_of_right_ne_nil _ (cons_ne_nil _ _))

theorem placed_linkLineTable (begins : Begins map entries) (formed : WellFormed entries) :
    ∃ bound, Placed map bound (linkLineTable map.entries entries) := by
  have start : Sound map entries Linking.start [].getLast? := sound_start
  have order : InOrder map 0 Linking.start ([] : List Entry).getLast? := inOrder_start
  obtain ⟨next, after⟩ := order.run begins formed [] (nil_append entries).symm start fun _ => rfl
  exact ⟨next, after.placed⟩

end Lldb.LineTable
