/-
Reading opcodes back.

`lookup` goes from a mnemonic and a mode to an opcode; `named` goes back, to all the pairs that have a given opcode. In
the table of the 6502 no opcode stands twice, so an opcode names at most one pair.

- `lookup_eq_some_iff`, `lookup_eq_none_iff`: what the look-up gives, said with the rows of the tables.
- `mem_named_iff`: `named` lists exactly the pairs whose look-up gives the opcode, in every instruction set.
- `named_eq`: in the instruction set of the 6502 the opcode of a pair names this pair alone.
-/
import Mathlib.Data.List.Nodup
import Asm6502.InstructionSet

namespace Asm6502.InstructionSet

/-- every pair of mnemonic and mode in either table, with the opcode that stands there -/
def entries (set : InstructionSet) : List ((String × Mode) × UInt8) :=
  (set.single.map fun row => ((row.1, row.2.1), row.2.2)) ++
    set.extended.flatMap fun row => row.2.map fun column => ((row.1, column.1), column.2)

/-- the pairs of mnemonic and mode that have the given opcode -/
def named (set : InstructionSet) (opcode : UInt8) : List (String × Mode) :=
  (set.entries.filter fun entry => entry.2 = opcode ∧ set.lookup entry.1.1 entry.1.2 = some opcode).map Prod.fst

theorem mem_of_lookup {α β : Type} [BEq α] [LawfulBEq α] {table : List (α × β)} {key : α} {value : β}
    (h : table.lookup key = some value) : (key, value) ∈ table := by
  obtain ⟨before, after, rfl, _⟩ := List.lookup_eq_some_iff.1 h
  simp

theorem mem_entries_of_lookup {set : InstructionSet} {mnemonic : String} {mode : Mode} {opcode : UInt8}
    (h : set.lookup mnemonic mode = some opcode) : ((mnemonic, mode), opcode) ∈ set.entries := by
  have hextended : (set.extended.lookup mnemonic).bind (·.lookup mode) = some opcode →
      ((mnemonic, mode), opcode) ∈ set.entries := by
    intro hm
    obtain ⟨columns, hrow, hcolumn⟩ := Option.bind_eq_some_iff.1 hm
    refine List.mem_append_right _ (List.mem_flatMap.2 ⟨_, mem_of_lookup hrow, ?_⟩)
    exact List.mem_map.2 ⟨_, mem_of_lookup hcolumn, rfl⟩
  simp only [lookup] at h
  split at h
  next own found hrow =>
    split at h
    next heq =>
      cases h
      refine List.mem_append_left _ (List.mem_map.2 ⟨_, mem_of_lookup hrow, ?_⟩)
      rw [heq]
    next => exact hextended h
  next => exact hextended h

/-- **The look-up gives the rows of the two tables**: a pair has an opcode just where a row of the 6502 says so, and no
row is hidden by another one. -/
theorem lookup_eq_some_iff {mnemonic : String} {mode : Mode} {opcode : UInt8} :
    mos6502.lookup mnemonic mode = some opcode ↔ ((mnemonic, mode), opcode) ∈ mos6502.entries := by
  have hrows : ∀ entry ∈ mos6502.entries, mos6502.lookup entry.1.1 entry.1.2 = some entry.2 := by decide +kernel
  exact ⟨mem_entries_of_lookup, hrows _⟩

/-- a pair has no opcode just where no row is for it -/
theorem lookup_eq_none_iff {mnemonic : String} {mode : Mode} :
    mos6502.lookup mnemonic mode = none ↔ (mnemonic, mode) ∉ mos6502.entries.map Prod.fst := by
  rw [Option.eq_none_iff_forall_ne_some, List.mem_map]
  constructor
  · rintro hnone ⟨⟨_, opcode⟩, he, rfl⟩
    exact hnone opcode (lookup_eq_some_iff.2 he)
  · intro hrow opcode h
    exact hrow ⟨_, lookup_eq_some_iff.1 h, rfl⟩

theorem mem_named_iff {set : InstructionSet} {opcode : UInt8} {mnemonic : String} {mode : Mode} :
    (mnemonic, mode) ∈ set.named opcode ↔ set.lookup mnemonic mode = some opcode := by
  rw [named, List.mem_map]
  constructor
  · rintro ⟨entry, he, heq⟩
    obtain ⟨_, hlookup⟩ := of_decide_eq_true (List.mem_filter.1 he).2
    rwa [heq] at hlookup
  · intro h
    exact ⟨_, List.mem_filter.2 ⟨mem_entries_of_lookup h, decide_eq_true ⟨rfl, h⟩⟩, rfl⟩

theorem nodup_opcodes : (mos6502.entries.map Prod.snd).Nodup := by
  have h : ((mos6502.entries.map Prod.snd).map UInt8.toNat).Nodup := by decide +kernel
  exact h.of_map _

/-- **An opcode names one instruction**: no two pairs share an opcode. -/
theorem lookup_injective {mnemonic other : String} {mode way : Mode} {opcode : UInt8}
    (h : mos6502.lookup mnemonic mode = some opcode) (ho : mos6502.lookup other way = some opcode) :
    (other, way) = (mnemonic, mode) := by
  have heq := List.inj_on_of_nodup_map nodup_opcodes (mem_entries_of_lookup ho) (mem_entries_of_lookup h) rfl
  exact congrArg Prod.fst heq

theorem named_eq {mnemonic : String} {mode : Mode} {opcode : UInt8}
    (h : mos6502.lookup mnemonic mode = some opcode) : mos6502.named opcode = [(mnemonic, mode)] := by
  have hnodup : (mos6502.named opcode).Nodup := by
    refine List.Nodup.map_on ?_ ((nodup_opcodes.of_map _).filter _)
    intro entry he other ho heq
    have hopcode : entry.2 = opcode := (of_decide_eq_true (List.mem_filter.1 he).2).1
    have hother : other.2 = opcode := (of_decide_eq_true (List.mem_filter.1 ho).2).1
    exact Prod.ext heq (hopcode.trans hother.symm)
  have hall : ∀ pair, pair ∈ mos6502.named opcode ↔ pair ∈ [(mnemonic, mode)] := by
    intro pair
    rw [List.mem_singleton]
    constructor
    · intro hp
      exact lookup_injective h (mem_named_iff.1 hp)
    · rintro rfl
      exact mem_named_iff.2 h
  exact List.perm_singleton.1 ((List.perm_ext_iff_of_nodup hnodup (List.nodup_singleton _)).2 hall)

end Asm6502.InstructionSet
