import Pintos.InodeData

/-!
# Partition tables

`partition_scan` and `read_partition_table` of `devices/partition.c`.  A table has four entries;
an entry for an extended partition leads to another table, at an absolute sector when the entry is
in sector 0 and relative to the first extended partition otherwise.  The recursion need not end,
and the model has a bound on its depth.  Memory for the tables is taken to be there.

`read_partition_table` reads sector 0 whatever table it was called for.  A call of
`found_partition` is kept with the sector its table was read from and the index of the entry.  The
chain of tables that the comments describe is walked by `listing` with every table read from its
own sector (`chain`); the code's calls are those of the same walk with every table read from
sector 0 (`readPartitionTable_eq`).  For a finite chain **the scan is right exactly when** no
extended partition of sector 0 is on the device, or there is nothing to find in the whole chain
and the recursion ends all the same (`partitionScan_follows_chain_iff`).
-/

namespace Pintos
open List
namespace PartitionTable
open Filesys (Device sectorSize leWord leWord_lt)

/-- `struct partition_table_entry`, without what is not read. -/
structure Entry where
  type : Byte
  offset : Nat
  size : Nat

/-- An element of `partitions` in a `struct partition_table`. -/
def partitions (pt : List Byte) (i : Nat) : Entry :=
  let e := pt.drop (446 + 16 * i)
  ⟨e.getD 4 0, leWord (e.drop 8), leWord (e.drop 12)⟩

/-- The `signature` in a `struct partition_table`. -/
def signature (pt : List Byte) : Nat :=
  (pt.getD 510 0).toNat + 256 * (pt.getD 511 0).toNat

/-- An empty partition. -/
def Entry.IsEmpty (e : Entry) : Prop :=
  e.size = 0 ∨ e.type = 0

/-- An extended partition. -/
def Entry.IsExtended (e : Entry) : Prop :=
  e.type = 0x05 ∨ e.type = 0x0f ∨ e.type = 0x85 ∨ e.type = 0xc5

instance (e : Entry) : Decidable e.IsEmpty :=
  inferInstanceAs (Decidable (_ ∨ _))

instance (e : Entry) : Decidable e.IsExtended :=
  inferInstanceAs (Decidable (_ ∨ _))

/-- A call of `found_partition`: the entry it is for, by the sector that was read and the index,
and the arguments but the number. -/
structure Call where
  table : Nat
  index : Nat
  type : Byte
  start : Nat
  size : Nat
  deriving DecidableEq

/-- The number of partitions so far, the calls with the number each was given, and what was
printed. -/
structure Scan where
  partNr : Nat
  calls : List (Call × Nat)
  log : List String

/-- `printf`. -/
def Scan.print (st : Scan) (message : String) : Scan :=
  { st with log := st.log ++ [message] }

/-- `++*part_nr`, and the call of `found_partition`. -/
def Scan.found (st : Scan) (call : Call) : Scan :=
  { st with partNr := st.partNr + 1, calls := st.calls ++ [(call, st.partNr + 1)] }

/-- `read_partition_table`, to a depth; `name` is that of the device. -/
def readPartitionTable (name : String) (d : Device) : Nat → Nat → Nat → Scan → Option Scan
  | 0, _, _, _ => none
  | depth + 1, sector, primaryExtendedSector, st =>
    if sector ≥ d.size then
      some (st.print (name ++ ": Partition table at sector " ++ toString sector
        ++ " past end of device.\n"))
    else do
      -- the sector of the table is not the one that is read
      let source := 0
      let pt ← d.blockRead source
      if signature pt ≠ 0xaa55 then
        if primaryExtendedSector = 0 then
          some (st.print (name ++ ": Invalid partition table signature\n"))
        else
          some (st.print (name ++ ": Invalid extended partition table in sector "
            ++ toString sector ++ "\n"))
      else
        (List.range 4).foldlM (fun st i =>
          let e := partitions pt i
          if e.IsEmpty then
            some st
          else if e.IsExtended then
            let st := st.print (name ++ ": Extended partition in sector " ++ toString sector ++ "\n")
            if sector = 0 then
              readPartitionTable name d depth e.offset e.offset st
            else
              readPartitionTable name d depth ((e.offset + primaryExtendedSector) % unsignedSize)
                primaryExtendedSector st
          else
            some (st.found ⟨source, i, e.type, (e.offset + sector) % unsignedSize, e.size⟩)) st

/-- `partition_scan`. -/
def partitionScan (name : String) (d : Device) (depth : Nat) : Option Scan := do
  let st ← readPartitionTable name d depth 0 0 ⟨0, [], []⟩
  if st.partNr = 0 then some (st.print (name ++ ": Device contains no partitions\n"))
  else some st

/-! ## The chain of tables -/

/-- The lists for the first numbers, one behind the other. -/
def collect {α : Type} (f : Nat → Option (List α)) : Nat → Option (List α)
  | 0 => some []
  | n + 1 => do
    let l ← collect f n
    let l' ← f n
    some (l ++ l')

/-- **A depth-first walk over the tables**, where the table of a sector is read from `src` of it:
the calls it makes for entries that are neither empty nor extended. -/
def listing (src : Nat → Nat) (d : Device) : Nat → Nat → Nat → Option (List Call)
  | 0, _, _ => none
  | depth + 1, sector, primary =>
    let pt := d.bytes.load (sectorSize * src sector) sectorSize
    if d.size ≤ sector ∨ signature pt ≠ 0xaa55 then
      some []
    else
      collect (fun i =>
        let e := partitions pt i
        if e.IsEmpty then some []
        else if e.IsExtended then
          if sector = 0 then listing src d depth e.offset e.offset
          else listing src d depth ((e.offset + primary) % unsignedSize) primary
        else some [⟨src sector, i, e.type, (e.offset + sector) % unsignedSize, e.size⟩]) 4

/-- **The chain that the comments describe**: every table is the one in its own sector. -/
def chain (d : Device) (depth : Nat) : Option (List Call) :=
  listing id d depth 0 0

/-- Calls with consecutive numbers. -/
def numbered (partNr : Nat) (items : List Call) : List (Call × Nat) :=
  items.zipIdx (partNr + 1)

/-- The offsets of the extended partitions in sector 0. -/
def extendedOffsets (d : Device) : List Nat :=
  let pt := d.bytes.load 0 sectorSize
  if signature pt = 0xaa55 then
    (((List.range 4).map (partitions pt)).filter fun e => ¬e.IsEmpty ∧ e.IsExtended).map Entry.offset
  else
    []

section Collect
variable {α : Type} {f g : Nat → Option (List α)} {n i : Nat} {L : List α}

theorem collect_congr (h : ∀ i, i < n → f i = g i) : collect f n = collect g n := by
  induction n with
  | zero => rfl
  | succ n ih =>
    rw [collect, collect, ih fun i hi => h i (Nat.lt_succ_of_lt hi), h n (Nat.lt_succ_self n)]

theorem collect_eq_none (hi : i < n) (h : f i = none) : collect f n = none := by
  induction n with
  | zero => exact absurd hi (Nat.not_lt_zero i)
  | succ n ih =>
    rw [collect]
    by_cases hin : i = n
    · subst hin
      cases collect f i with
      | none => rfl
      | some l => rw [h]; rfl
    · rw [ih (by omega)]
      rfl

theorem exists_collect (h : ∀ i, i < n → ∃ l, f i = some l) : ∃ L, collect f n = some L := by
  induction n with
  | zero => exact ⟨[], rfl⟩
  | succ n ih =>
    obtain ⟨L, hL⟩ := ih fun i hi => h i (Nat.lt_succ_of_lt hi)
    obtain ⟨l, hl⟩ := h n (Nat.lt_succ_self n)
    exact ⟨L ++ l, by rw [collect, hL, hl]; rfl⟩

/-- What has been collected is all there. -/
theorem collect_spec (h : collect f n = some L) :
    (∀ i, i < n → ∃ l, f i = some l ∧ l ⊆ L) ∧
      ∀ x ∈ L, ∃ i l, i < n ∧ f i = some l ∧ x ∈ l := by
  induction n generalizing L with
  | zero =>
    cases h
    exact ⟨fun i hi => absurd hi (Nat.not_lt_zero i), forall_mem_nil _⟩
  | succ n ih =>
    rw [collect] at h
    obtain ⟨L', hL', h⟩ := of_bind h
    obtain ⟨l, hl, h⟩ := of_bind h
    cases h
    obtain ⟨hall, hmem⟩ := ih hL'
    refine ⟨fun i hi => ?_, fun x hx => ?_⟩
    · by_cases hin : i = n
      · subst hin
        exact ⟨l, hl, subset_append_right _ _⟩
      · obtain ⟨l', hl', hsub⟩ := hall i (by omega)
        exact ⟨l', hl', subset_append_of_subset_left _ hsub⟩
    · rcases mem_append.mp hx with hx | hx
      · obtain ⟨i, l', hi, hl', hx⟩ := hmem x hx
        exact ⟨i, l', Nat.lt_succ_of_lt hi, hl', hx⟩
      · exact ⟨n, l, Nat.lt_succ_self n, hl, hx⟩

end Collect

/-! ## The calls of the code -/

section Code
variable {name : String} {d : Device} {st : Scan}

/-- A step of the scan that makes certain calls. -/
def Makes (st st' : Scan) (items : List Call) : Prop :=
  st'.partNr = st.partNr + items.length ∧ st'.calls = st.calls ++ numbered st.partNr items

theorem Makes.nil {st st' : Scan} (hnr : st'.partNr = st.partNr) (hcalls : st'.calls = st.calls) :
    Makes st st' [] :=
  ⟨hnr, by rw [hcalls]; exact (append_nil _).symm⟩

theorem Makes.append {st st' st'' : Scan} {l l' : List Call} (h : Makes st st' l)
    (h' : Makes st' st'' l') : Makes st st'' (l ++ l') := by
  obtain ⟨hnr, hcalls⟩ := h
  obtain ⟨hnr', hcalls'⟩ := h'
  refine ⟨by rw [hnr', hnr, length_append, Nat.add_assoc], ?_⟩
  rw [hcalls', hcalls, hnr, append_assoc, numbered, numbered, numbered, zipIdx_append,
    Nat.add_right_comm]

/-- What a step of the scan does, when the calls it has to make are listed: it makes them, or does
not return. -/
inductive Follows (st : Scan) : Option (List Call) → Option Scan → Prop where
  | none : Follows st none none
  | some {items : List Call} {st' : Scan} (h : Makes st st' items) :
      Follows st (some items) (some st')

theorem Follows.print {listed : Option (List Call)} {result : Option Scan} (message : String)
    (h : Follows (st.print message) listed result) : Follows st listed result := by
  cases h with
  | none => exact .none
  | some h => exact .some h

/-- The loop over the entries. -/
theorem follows_loop {step : Scan → Nat → Option Scan} {f : Nat → Option (List Call)}
    (hstep : ∀ st i, Follows st (f i) (step st i)) (n : Nat) (st : Scan) :
    Follows st (collect f n) ((List.range n).foldlM step st) := by
  induction n with
  | zero => exact .some (.nil rfl rfl)
  | succ n ih =>
    rw [collect, range_succ, foldlM_append]
    generalize collect f n = listed at ih ⊢
    generalize (List.range n).foldlM step st = result at ih ⊢
    cases ih with
    | none => exact .none
    | @some l st' hmakes =>
      have hlast := hstep st' n
      simp only [some_bind, foldlM_cons, foldlM_nil]
      generalize f n = listed at hlast ⊢
      generalize step st' n = result at hlast ⊢
      cases hlast with
      | none => exact .none
      | some hmakes' => exact .some (hmakes.append hmakes')

/-- **The calls of the code** are those of a walk that reads every table from sector 0. -/
theorem readPartitionTable_eq (name : String) (d : Device) (depth sector primary : Nat) (st : Scan) :
    Follows st (listing (fun _ => 0) d depth sector primary)
      (readPartitionTable name d depth sector primary st) := by
  induction depth generalizing sector primary st with
  | zero => exact .none
  | succ depth ih =>
    rw [listing, readPartitionTable]
    by_cases hpast : sector ≥ d.size
    · rw [if_pos (.inl hpast), if_pos hpast]
      exact .some (.nil rfl rfl)
    have hread : d.blockRead 0 = some (d.bytes.load (sectorSize * 0) sectorSize) := by
      rw [Device.blockRead, assert_of (by omega)]
      rfl
    simp only [if_neg hpast, hread, some_bind]
    by_cases hsignature : signature (d.bytes.load (sectorSize * 0) sectorSize) ≠ 0xaa55
    · rw [if_pos (.inr hsignature), if_pos hsignature]
      split
      · exact .some (.nil rfl rfl)
      · exact .some (.nil rfl rfl)
    rw [if_neg (not_or.mpr ⟨hpast, hsignature⟩), if_neg hsignature]
    refine follows_loop (fun st i => ?_) 4 st
    by_cases hempty : (partitions (d.bytes.load (sectorSize * 0) sectorSize) i).IsEmpty
    · rw [if_pos hempty, if_pos hempty]
      exact .some (.nil rfl rfl)
    rw [if_neg hempty, if_neg hempty]
    by_cases hextended : (partitions (d.bytes.load (sectorSize * 0) sectorSize) i).IsExtended
    · rw [if_pos hextended, if_pos hextended]
      by_cases hzero : sector = 0
      · rw [if_pos hzero, if_pos hzero]
        exact (ih _ _ _).print _
      · rw [if_neg hzero, if_neg hzero]
        exact (ih _ _ _).print _
    · rw [if_neg hextended, if_neg hextended]
      exact .some ⟨rfl, rfl⟩

end Code

/-! ## The walk -/

/-- The table in a sector. -/
def tableAt (d : Device) (sector : Nat) : List Byte :=
  d.bytes.load (sectorSize * sector) sectorSize

/-- A table that can be read. -/
def Readable (d : Device) (src : Nat → Nat) (sector : Nat) : Prop :=
  sector < d.size ∧ signature (tableAt d (src sector)) = 0xaa55

/-- The call for an entry of a table. -/
def callFor (src : Nat → Nat) (d : Device) (sector i : Nat) : Call :=
  let e := partitions (tableAt d (src sector)) i
  ⟨src sector, i, e.type, (e.offset + sector) % unsignedSize, e.size⟩

/-- The walk from an extended partition with an offset, in the table of a sector. -/
def descend (src : Nat → Nat) (d : Device) (depth sector primary offset : Nat) :
    Option (List Call) :=
  if sector = 0 then listing src d depth offset offset
  else listing src d depth ((offset + primary) % unsignedSize) primary

section Walk
variable {src : Nat → Nat} {d : Device} {depth sector primary i : Nat} {L : List Call}

/-- What an entry contributes. -/
def contribution (src : Nat → Nat) (d : Device) (depth sector primary i : Nat) :
    Option (List Call) :=
  let e := partitions (tableAt d (src sector)) i
  if e.IsEmpty then some []
  else if e.IsExtended then descend src d depth sector primary e.offset
  else some [callFor src d sector i]

theorem listing_of_readable (h : Readable d src sector) :
    listing src d (depth + 1) sector primary
      = collect (contribution src d depth sector primary) 4 := by
  rw [listing]
  exact if_neg (not_or.mpr ⟨Nat.not_le.mpr h.1, not_not.mpr h.2⟩)

theorem listing_of_not_readable (h : ¬Readable d src sector) :
    listing src d (depth + 1) sector primary = some [] := by
  rw [listing]
  refine if_pos ?_
  by_contra hnot
  rw [not_or, Nat.not_le, not_not] at hnot
  exact h hnot

theorem contribution_of_empty (src : Nat → Nat) (sector : Nat)
    (hempty : (partitions (tableAt d (src sector)) i).IsEmpty) :
    contribution src d depth sector primary i = some [] := by
  rw [contribution]
  exact if_pos hempty

theorem contribution_of_extended (src : Nat → Nat) (sector : Nat)
    (hempty : ¬(partitions (tableAt d (src sector)) i).IsEmpty)
    (hextended : (partitions (tableAt d (src sector)) i).IsExtended) :
    contribution src d depth sector primary i
      = descend src d depth sector primary (partitions (tableAt d (src sector)) i).offset := by
  rw [contribution]
  simp only [if_neg hempty, if_pos hextended]

theorem contribution_of_partition (src : Nat → Nat) (sector : Nat)
    (hempty : ¬(partitions (tableAt d (src sector)) i).IsEmpty)
    (hextended : ¬(partitions (tableAt d (src sector)) i).IsExtended) :
    contribution src d depth sector primary i = some [callFor src d sector i] := by
  rw [contribution]
  simp only [if_neg hempty, if_neg hextended]

/-- The three kinds of entries. -/
theorem contribution_cases (src : Nat → Nat) (d : Device) (depth sector primary i : Nat) :
    let e := partitions (tableAt d (src sector)) i
    (e.IsEmpty ∧ contribution src d depth sector primary i = some []) ∨
    (¬e.IsEmpty ∧ e.IsExtended ∧ contribution src d depth sector primary i
      = descend src d depth sector primary e.offset) ∨
    (¬e.IsEmpty ∧ ¬e.IsExtended ∧
      contribution src d depth sector primary i = some [callFor src d sector i]) := by
  intro e
  by_cases hempty : e.IsEmpty
  · exact .inl ⟨hempty, contribution_of_empty src sector hempty⟩
  · by_cases hextended : e.IsExtended
    · exact .inr (.inl ⟨hempty, hextended, contribution_of_extended src sector hempty hextended⟩)
    · exact .inr (.inr ⟨hempty, hextended, contribution_of_partition src sector hempty hextended⟩)

/-- A partition of a table that is walked over is listed. -/
theorem mem_listing_of_partition (h : Readable d src sector)
    (hL : listing src d depth sector primary = some L) (hi : i < 4)
    (hempty : ¬(partitions (tableAt d (src sector)) i).IsEmpty)
    (hextended : ¬(partitions (tableAt d (src sector)) i).IsExtended) :
    callFor src d sector i ∈ L := by
  cases depth with
  | zero => cases hL
  | succ depth =>
    rw [listing_of_readable h] at hL
    obtain ⟨l, hl, hsub⟩ := (collect_spec hL).1 i hi
    rw [contribution_of_partition src sector hempty hextended] at hl
    cases hl
    exact hsub (mem_singleton_self _)

/-- **What is listed** is a partition of some table. -/
theorem exists_of_mem_listing {call : Call} (hL : listing src d depth sector primary = some L)
    (hmem : call ∈ L) : ∃ sector' i, call = callFor src d sector' i ∧ i < 4 ∧
      Readable d src sector' ∧ ¬(partitions (tableAt d (src sector')) i).IsEmpty ∧
      ¬(partitions (tableAt d (src sector')) i).IsExtended := by
  induction depth generalizing sector primary L with
  | zero => cases hL
  | succ depth ih =>
    by_cases hread : Readable d src sector
    · rw [listing_of_readable hread] at hL
      obtain ⟨i, l, hi, hl, hmem⟩ := (collect_spec hL).2 call hmem
      rcases contribution_cases src d depth sector primary i with
        ⟨-, hnil⟩ | ⟨-, -, hdescend⟩ | ⟨hempty, hextended, hcall⟩
      · rw [hnil] at hl
        cases hl
        exact absurd hmem not_mem_nil
      · rw [hdescend, descend] at hl
        split at hl
        · exact ih hl hmem
        · exact ih hl hmem
      · rw [hcall] at hl
        cases hl
        exact ⟨sector, i, mem_singleton.mp hmem, hi, hread, hempty, hextended⟩
    · rw [listing_of_not_readable hread] at hL
      cases hL
      exact absurd hmem not_mem_nil

end Walk

/-! ## When the code is right -/

section Right
variable {d : Device} {depth : Nat} {X Y : Nat}

/-- The code takes every table for the one in sector 0. -/
abbrev first : Nat → Nat := fun _ => 0

theorem mem_extendedOffsets : X ∈ extendedOffsets d ↔
    signature (tableAt d 0) = 0xaa55 ∧ ∃ i, i < 4 ∧ ¬(partitions (tableAt d 0) i).IsEmpty ∧
      (partitions (tableAt d 0) i).IsExtended ∧ (partitions (tableAt d 0) i).offset = X := by
  have htable : tableAt d 0 = d.bytes.load 0 sectorSize := rfl
  rw [extendedOffsets, htable]
  by_cases hsignature : signature (d.bytes.load 0 sectorSize) = 0xaa55
  · rw [if_pos hsignature]
    constructor
    · intro hmem
      obtain ⟨e, he, hoffset⟩ := mem_map.mp hmem
      obtain ⟨hpartition, hkind⟩ := mem_filter.mp he
      obtain ⟨i, hi, rfl⟩ := mem_map.mp hpartition
      obtain ⟨hempty, hextended⟩ := of_decide_eq_true hkind
      exact ⟨hsignature, i, mem_range.mp hi, hempty, hextended, hoffset⟩
    · rintro ⟨-, i, hi, hempty, hextended, hoffset⟩
      refine mem_map.mpr ⟨_, mem_filter.mpr ⟨?_, ?_⟩, hoffset⟩
      · exact mem_map.mpr ⟨i, mem_range.mpr hi, rfl⟩
      · exact decide_eq_true ⟨hempty, hextended⟩
  · rw [if_neg hsignature]
    exact ⟨fun h => absurd h not_mem_nil, fun h => absurd h.1 hsignature⟩

/-- **The recursion does not end** when an extended partition leads to a sector of the device from
which another leads to one again. -/
theorem listing_first_loops (hX : X ∈ extendedOffsets d) (hXsize : X < d.size)
    (hY : Y ∈ extendedOffsets d) (hYsize : (Y + X) % unsignedSize < d.size) {sector primary : Nat}
    (hsector : sector < d.size) (hprimary : sector = 0 ∨ primary = X) :
    listing first d depth sector primary = none := by
  obtain ⟨hsignature, i, hi, hempty, hextended, hoffset⟩ := mem_extendedOffsets.mp hX
  obtain ⟨-, j, hj, hempty', hextended', hoffset'⟩ := mem_extendedOffsets.mp hY
  induction depth generalizing sector primary with
  | zero => rfl
  | succ depth ih =>
    have hread : Readable d first sector := ⟨hsector, hsignature⟩
    rw [listing_of_readable hread]
    by_cases hzero : sector = 0
    · refine collect_eq_none hi ?_
      rw [contribution_of_extended first sector hempty hextended, descend, if_pos hzero, hoffset]
      exact ih hXsize (.inr rfl)
    · obtain rfl := hprimary.resolve_left hzero
      refine collect_eq_none hj ?_
      rw [contribution_of_extended first sector hempty' hextended', descend, if_neg hzero, hoffset']
      exact ih hYsize (.inr rfl)

/-- No extended partition leads to a sector of the device from which another leads to one. -/
def Ends (d : Device) : Prop :=
  ∀ X ∈ extendedOffsets d, X < d.size → ∀ Y ∈ extendedOffsets d, d.size ≤ (Y + X) % unsignedSize

theorem Ends.ne_zero (hends : Ends d) (hX : X ∈ extendedOffsets d) (hXsize : X < d.size) :
    X ≠ 0 := by
  rintro rfl
  have := hends 0 hX hXsize 0 hX
  rw [Nat.zero_add, Nat.zero_mod] at this
  omega

/-- **Otherwise the recursion ends.** -/
theorem listing_first_ends (hends : Ends d) : ∃ L, listing first d 3 0 0 = some L := by
  -- the entries of a table, when what is behind the extended ones ends
  have htable : ∀ {depth sector primary}, (signature (tableAt d 0) = 0xaa55 →
      ∀ X ∈ extendedOffsets d, ∃ L, descend first d depth sector primary X = some L) →
      ∃ L, listing first d (depth + 1) sector primary = some L := by
    intro depth sector primary hbehind
    by_cases hread : Readable d first sector
    · rw [listing_of_readable hread]
      refine exists_collect fun i hi => ?_
      rcases contribution_cases first d depth sector primary i with
        ⟨-, hnil⟩ | ⟨hempty, hextended, hdescend⟩ | ⟨-, -, hcall⟩
      · exact ⟨_, hnil⟩
      · rw [hdescend]
        exact hbehind hread.2 _ (mem_extendedOffsets.mpr ⟨hread.2, i, hi, hempty, hextended, rfl⟩)
      · exact ⟨_, hcall⟩
    · exact ⟨_, listing_of_not_readable hread⟩
  refine htable fun _ X hX => ?_
  rw [descend, if_pos rfl]
  by_cases hXsize : X < d.size
  · refine htable fun _ Y hY => ?_
    rw [descend, if_neg (hends.ne_zero hX hXsize)]
    exact ⟨_, listing_of_not_readable fun h => Nat.not_le.mpr h.1 (hends X hX hXsize Y hY)⟩
  · exact ⟨_, listing_of_not_readable fun h => hXsize h.1⟩

/-- A partition in sector 0 beside an extended partition on the device is found a second time, at
a start that is not that of an entry of sector 0. -/
theorem no_partition_of_extended {items : List Call} {depth' : Nat}
    (hcode : listing first d depth 0 0 = some items) (hchain : chain d depth' = some items)
    (hends : Ends d) (hX : X ∈ extendedOffsets d) (hXsize : X < d.size) {i : Nat} (hi : i < 4)
    (hempty : ¬(partitions (tableAt d 0) i).IsEmpty) :
    (partitions (tableAt d 0) i).IsExtended := by
  by_contra hextended
  obtain ⟨hsignature, j, hj, hempty', hextended', hoffset⟩ := mem_extendedOffsets.mp hX
  have hne := hends.ne_zero hX hXsize
  have hlt : X < unsignedSize := hoffset ▸ leWord_lt _
  cases depth with
  | zero => cases hcode
  | succ depth =>
    have hread : Readable d first 0 := ⟨Nat.zero_lt_of_lt hXsize, hsignature⟩
    rw [listing_of_readable hread] at hcode
    obtain ⟨l, hl, hsub⟩ := (collect_spec hcode).1 j hj
    rw [contribution_of_extended first 0 hempty' hextended', descend, if_pos rfl, hoffset] at hl
    have hreadX : Readable d first X := ⟨hXsize, hsignature⟩
    have hmem : callFor first d X i ∈ items :=
      hsub (mem_listing_of_partition hreadX hl hi hempty hextended)
    -- in the chain, the entry of sector 0 with this index has its own start
    obtain ⟨sector, i', hcall, -⟩ := exists_of_mem_listing hchain hmem
    obtain ⟨hsector, rfl, -, hstart, -⟩ := Call.mk.inj hcall
    obtain rfl : 0 = sector := hsector
    have hoffset_lt := leWord_lt (((tableAt d 0).drop (446 + 16 * i)).drop 8)
    change ((partitions (tableAt d 0) i).offset + X) % unsignedSize
      = ((partitions (tableAt d 0) i).offset + 0) % unsignedSize at hstart
    rw [unsignedSize] at hlt hoffset_lt hstart
    omega

/-- Without a partition in sector 0 the code finds none. -/
theorem listing_first_eq_nil {L : List Call} {sector primary : Nat}
    (hnone : ∀ i, i < 4 → ¬(partitions (tableAt d 0) i).IsEmpty →
      (partitions (tableAt d 0) i).IsExtended)
    (hL : listing first d depth sector primary = some L) : L = [] := by
  refine eq_nil_iff_forall_not_mem.mpr fun call hmem => ?_
  obtain ⟨sector', i, -, hi, -, hempty, hextended⟩ := exists_of_mem_listing hL hmem
  exact hextended (hnone i hi hempty)

/-- Without an extended partition on the device, code and chain are the entries of sector 0. -/
theorem listing_first_eq_chain (hpast : ∀ X ∈ extendedOffsets d, d.size ≤ X) :
    listing first d depth 0 0 = chain d depth := by
  rw [chain]
  cases depth with
  | zero => rfl
  | succ depth =>
    by_cases hread : Readable d first 0
    · have hread' : Readable d id 0 := hread
      rw [listing_of_readable hread, listing_of_readable hread']
      refine collect_congr fun i hi => ?_
      rcases contribution_cases first d depth 0 0 i with
        ⟨hempty, hnil⟩ | ⟨hempty, hextended, hdescend⟩ | ⟨hempty, hextended, hcall⟩
      · rw [hnil, contribution_of_empty id 0 hempty]
      · rw [hdescend, contribution_of_extended id 0 hempty hextended, descend, descend,
          if_pos rfl, if_pos rfl]
        have hXpast := hpast _ (mem_extendedOffsets.mpr ⟨hread.2, i, hi, hempty, hextended, rfl⟩)
        cases depth with
        | zero => rfl
        | succ depth =>
          rw [listing_of_not_readable fun h => Nat.not_le.mpr h.1 hXpast]
          exact (listing_of_not_readable fun h => Nat.not_le.mpr h.1 hXpast).symm
      · rw [hcall, contribution_of_partition id 0 hempty hextended]
        rfl
    · have hread' : ¬Readable d id 0 := hread
      rw [listing_of_not_readable hread, listing_of_not_readable hread']

/-- What `partition_scan` calls. -/
theorem partitionScan_calls_iff (name : String) (items : List Call) :
    (∃ depth st, partitionScan name d depth = some st ∧ st.calls = numbered 0 items) ↔
      ∃ depth, listing first d depth 0 0 = some items := by
  refine exists_congr fun depth => ?_
  have hfollows := readPartitionTable_eq name d depth 0 0 ⟨0, [], []⟩
  rw [partitionScan]
  generalize listing first d depth 0 0 = listed at hfollows ⊢
  generalize readPartitionTable name d depth 0 0 ⟨0, [], []⟩ = result at hfollows ⊢
  cases hfollows with
  | none => simp
  | @some items' st hmakes =>
    have hcalls : st.calls = numbered 0 items' := hmakes.2
    have hscan : ∃ st', (do
        let st ← some st
        if st.partNr = 0 then some (st.print (name ++ ": Device contains no partitions\n"))
        else some st) = some st' ∧ st'.calls = st.calls := by
      by_cases hnone : st.partNr = 0
      · exact ⟨_, if_pos hnone, rfl⟩
      · exact ⟨_, if_neg hnone, rfl⟩
    obtain ⟨st', hst', hsame⟩ := hscan
    rw [hst']
    constructor
    · rintro ⟨_, ⟨⟩, hitems⟩
      rw [hsame, hcalls] at hitems
      have := congrArg (List.map Prod.fst) hitems
      rw [numbered, numbered, zipIdx_map_fst, zipIdx_map_fst] at this
      rw [this]
    · rintro ⟨⟩
      exact ⟨st', rfl, hsame.trans hcalls⟩

end Right

/-- **When the scan follows the chain.**  For every disk whose chain of tables is finite,
`partition_scan` returns and has called `found_partition` once for every partition of the chain, in
depth-first order with consecutive numbers, exactly when no extended partition of sector 0 begins
on the device, or there is no partition in the whole chain and no extended partition of sector 0
leads to a sector of the device by itself and with the offset of another one added. -/
theorem partitionScan_follows_chain_iff (name : String) (d : Device) {depth : Nat}
    {items : List Call} (hchain : chain d depth = some items) :
    (∃ depth' st, partitionScan name d depth' = some st ∧ st.calls = numbered 0 items) ↔
      (∀ X ∈ extendedOffsets d, d.size ≤ X) ∨
      items = [] ∧ ∀ X ∈ extendedOffsets d, X < d.size →
        ∀ Y ∈ extendedOffsets d, d.size ≤ (Y + X) % unsignedSize := by
  rw [partitionScan_calls_iff]
  constructor
  · rintro ⟨depth', hcode⟩
    by_cases hpast : ∀ X ∈ extendedOffsets d, d.size ≤ X
    · exact .inl hpast
    obtain ⟨X, hXnot⟩ := not_forall.mp hpast
    obtain ⟨hX, hXsize⟩ := Classical.not_imp.mp hXnot
    rw [Nat.not_le] at hXsize
    have hends : Ends d := by
      intro X hX hXsize Y hY
      by_contra hYsize
      rw [listing_first_loops hX hXsize hY (Nat.not_le.mp hYsize) (Nat.zero_lt_of_lt hXsize)
        (.inl rfl)] at hcode
      cases hcode
    have hnone := fun i hi => no_partition_of_extended hcode hchain hends hX hXsize (i := i) hi
    exact .inr ⟨listing_first_eq_nil hnone hcode, hends⟩
  · rintro (hpast | ⟨rfl, hends⟩)
    · exact ⟨depth, by rw [listing_first_eq_chain hpast, hchain]⟩
    · obtain ⟨L, hL⟩ := listing_first_ends hends
      suffices hnil : L = [] from ⟨3, by rw [hL, hnil]⟩
      -- a partition of sector 0 would be in the chain
      refine eq_nil_iff_forall_not_mem.mpr fun call hmem => ?_
      obtain ⟨sector, i, -, hi, hread, hempty, hextended⟩ := exists_of_mem_listing hL hmem
      have hread₀ : Readable d id 0 := ⟨Nat.zero_lt_of_lt hread.1, hread.2⟩
      exact not_mem_nil (mem_listing_of_partition hread₀ hchain hi hempty hextended)

/-- A disk of four sectors: the only entry in sector 0 is an extended partition in sector 2, whose
table has a partition of one sector, at sector 3. -/
def oneLogical : Device where
  size := 4
  bytes := fun x => ([(450, 0x05), (454, 2), (458, 2), (510, 0x55), (511, 0xaa), (1474, 0x21),
    (1478, 1), (1482, 1), (1534, 0x55), (1535, 0xaa)].lookup x).getD 0

/-- The chain of this disk. -/
theorem chain_oneLogical : chain oneLogical 3 = some [⟨2, 0, 0x21, 3, 1⟩] := by
  decide +kernel

theorem partitionScan_oneLogical_iff :
    (∃ depth' st, partitionScan "hda" oneLogical depth' = some st ∧
      st.calls = numbered 0 [⟨2, 0, 0x21, 3, 1⟩]) ↔
      (∀ X ∈ extendedOffsets oneLogical, oneLogical.size ≤ X) ∨
      ([⟨2, 0, 0x21, 3, 1⟩] : List Call) = [] ∧
        ∀ X ∈ extendedOffsets oneLogical, X < oneLogical.size →
          ∀ Y ∈ extendedOffsets oneLogical, oneLogical.size ≤ (Y + X) % unsignedSize :=
  partitionScan_follows_chain_iff "hda" oneLogical chain_oneLogical

/-- **The logical partition is never found**: the scan ends without a call, and says that the device
contains no partitions. -/
theorem logical_partition_missed :
    chain oneLogical 3 = some [⟨2, 0, 0x21, 3, 1⟩] ∧
      (partitionScan "hda" oneLogical 3).map Scan.calls = some [] ∧
      ¬∃ depth st, partitionScan "hda" oneLogical depth = some st ∧
        st.calls = numbered 0 [⟨2, 0, 0x21, 3, 1⟩] := by
  refine ⟨chain_oneLogical, by decide +kernel, fun h => ?_⟩
  obtain ⟨depth, hlisting⟩ := (partitionScan_calls_iff "hda" _).mp h
  have hnone : ∀ i, i < 4 → ¬(partitions (tableAt oneLogical 0) i).IsEmpty →
      (partitions (tableAt oneLogical 0) i).IsExtended := by
    decide +kernel
  exact absurd (listing_first_eq_nil hnone hlisting) (cons_ne_nil _ _)

end PartitionTable
end Pintos
