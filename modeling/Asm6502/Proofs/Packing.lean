/-
Packing any memory into any cartridge.

A compilation packs only what its second pass has stored, which always fits. Here the memory is arbitrary: it may have
gaps, it may reach into the vectors, and it may lie outside of the cartridge in part or as a whole.

- `Packed`: the image of a memory. It is determined by its fields (`Packed.unique`).
- `Unpackable`: why a memory has no image. Stored bytes are taken in the order of their addresses, so the address that
  is reported as outside is the least one of them.
- `foldlM_place_outside`: the loop stops at the first entry outside; the entries before it do not matter.
- `wordAt?_writeVectors`: what is written last, two words with the low byte first.
- `pack_iff`: packing gives just these images and just these faults, and no operation of it goes out of bounds.
-/
import Mathlib.Data.Nat.Find
import Asm6502.Proofs.Image
import Asm6502.Proofs.Safety

namespace Asm6502

/-- the sixteen-bit number at a place of an image, low byte first -/
def wordAt? (image : Array UInt8) (place : Nat) : Option Nat := do
  let low ← image[place]?
  let high ← image[place + 1]?
  pure (low.toNat + 256 * high.toNat)

theorem wordAt?_eq_some_iff {image : Array UInt8} {place word : Nat} :
    wordAt? image place = some word ↔
      ∃ low high, image[place]? = some low ∧ image[place + 1]? = some high ∧ low.toNat + 256 * high.toNat = word := by
  simp [wordAt?, Option.bind_eq_some_iff]

/-- a word has its bytes in one way only -/
theorem wordAt?_unique {image other : Array UInt8} {place word : Nat} (h : wordAt? image place = some word)
    (ho : wordAt? other place = some word) : image[place]? = other[place]? ∧ image[place + 1]? = other[place + 1]? := by
  obtain ⟨low, high, hlow, hhigh, hword⟩ := wordAt?_eq_some_iff.1 h
  obtain ⟨low', high', hlow', hhigh', hword'⟩ := wordAt?_eq_some_iff.1 ho
  have h1 := low.toNat_lt
  have h2 := low'.toNat_lt
  have heq : low.toNat = low'.toNat ∧ high.toNat = high'.toNat := by omega
  rw [hlow, hlow', hhigh, hhigh', UInt8.toNat_inj.1 heq.1, UInt8.toNat_inj.1 heq.2]
  exact ⟨rfl, rfl⟩

namespace Cartridge

def Holds (cartridge : Cartridge) (origin address : Nat) : Prop :=
  origin ≤ address ∧ address < origin + cartridge.capacity

instance (cartridge : Cartridge) (origin address : Nat) : Decidable (cartridge.Holds origin address) :=
  inferInstanceAs (Decidable (_ ∧ _))

/-- the image of a memory, for a program of `length` bytes -/
structure Packed (cartridge : Cartridge) (length origin : Nat) (bytes : Memory) (image : Array UInt8) : Prop where
  origin_eq : cartridge.origin = .ok origin
  fits : length ≤ cartridge.capacity - 4
  inside : ∀ address ∈ bytes, cartridge.Holds origin address
  size_eq : image.size = cartridge.capacity
  /-- what is stored below the vectors, and zero in the gaps -/
  content : ∀ i < cartridge.capacity - 4, image[i]? = some (bytes[origin + i]?.getD 0)
  reset : wordAt? image (cartridge.capacity - 4) = some origin
  interrupt : wordAt? image (cartridge.capacity - 2) = some origin

/-- a memory has no image, and the fault says why -/
inductive Unpackable (cartridge : Cartridge) (length : Nat) (bytes : Memory) : Fault → Prop where
  | origin {fault : Fault} (h : cartridge.origin = .error fault) : Unpackable cartridge length bytes fault
  | room {origin : Nat} (ho : cartridge.origin = .ok origin) (h : cartridge.capacity - 4 < length) :
      Unpackable cartridge length bytes (.programTooLarge length (cartridge.capacity - 4))
  /-- the least address that lies outside -/
  | outside {origin address : Nat} (ho : cartridge.origin = .ok origin) (hf : length ≤ cartridge.capacity - 4)
      (hm : address ∈ bytes) (h : ¬ cartridge.Holds origin address)
      (hleast : ∀ other ∈ bytes, ¬ cartridge.Holds origin other → address ≤ other) :
      Unpackable cartridge length bytes
        (.outOfRange "image offset" ((address : Int) - origin) 0 ((cartridge.capacity : Int) - 1))

/-! ## The loop over the stored bytes -/

theorem foldlM_place_outside {cartridge : Cartridge} {origin : Nat} {before after : List (Nat × UInt8)}
    {entry : Nat × UInt8} (image : Array UInt8) (hbefore : ∀ e ∈ before, cartridge.Holds origin e.1)
    (h : ¬ cartridge.Holds origin entry.1) :
    (before ++ entry :: after).foldlM (cartridge.place origin) image =
      .error (.outOfRange "image offset" ((entry.1 : Int) - origin) 0 ((cartridge.capacity : Int) - 1)) := by
  have hrange : ¬ ((0 : Int) ≤ (entry.1 : Int) - origin ∧
      (entry.1 : Int) - origin ≤ (cartridge.capacity : Int) - 1) := by
    unfold Holds at h
    omega
  rw [List.foldlM_append, foldlM_place hbefore, ok_bind, List.foldlM_cons, place, Check.inRange_eq_error hrange]
  rfl

/-- the stored bytes are listed in the order of their addresses -/
theorem ascending_toList (bytes : Memory) : bytes.toList.Pairwise fun a b => a.1 < b.1 :=
  Std.TreeMap.ordered_keys_toList.imp fun hlt => Nat.compare_eq_lt.1 hlt

/-- the list of the stored bytes split at the least address outside -/
theorem toList_split {cartridge : Cartridge} {origin address : Nat} {bytes : Memory} (hm : address ∈ bytes)
    (hleast : ∀ other ∈ bytes, ¬ cartridge.Holds origin other → address ≤ other) :
    ∃ before byte after, bytes.toList = before ++ (address, byte) :: after ∧
      ∀ entry ∈ before, cartridge.Holds origin entry.1 := by
  obtain ⟨byte, hbyte⟩ := Option.isSome_iff_exists.1 (Std.TreeMap.isSome_getElem?_iff_mem.2 hm)
  obtain ⟨before, after, hsplit⟩ := List.append_of_mem (Std.TreeMap.mem_toList_iff_getElem?_eq_some.2 hbyte)
  refine ⟨before, byte, after, hsplit, ?_⟩
  intro entry he
  by_contra houtside
  have hle : address ≤ entry.1 := by
    apply hleast entry.1 (mem_of_mem_toList _) houtside
    rw [hsplit]
    exact List.mem_append_left _ he
  have hlt : entry.1 < address := by
    have hsorted := ascending_toList bytes
    rw [hsplit] at hsorted
    exact (List.pairwise_append.1 hsorted).2.2 entry he (address, byte) List.mem_cons_self
  omega

/-- if some address lies outside, there is a least one -/
theorem exists_least_outside {cartridge : Cartridge} {origin : Nat} {bytes : Memory}
    (h : ¬ ∀ address ∈ bytes, cartridge.Holds origin address) :
    ∃ address ∈ bytes, ¬ cartridge.Holds origin address ∧
      ∀ other ∈ bytes, ¬ cartridge.Holds origin other → address ≤ other := by
  have hsome : ∃ address, address ∈ bytes ∧ ¬ cartridge.Holds origin address := by
    by_contra hnone
    apply h
    intro address hm
    by_contra houtside
    exact hnone ⟨address, hm, houtside⟩
  classical
  refine ⟨Nat.find hsome, (Nat.find_spec hsome).1, (Nat.find_spec hsome).2, ?_⟩
  intro other hm houtside
  exact Nat.find_min' hsome ⟨hm, houtside⟩

/-! ## Vectors -/

theorem origin_bytes {origin : Nat} (h : origin < 0x10000) :
    (UInt8.ofNat (origin % 256)).toNat + 256 * (UInt8.ofNat (origin / 256)).toNat = origin := by
  rw [UInt8.toNat_ofNat', UInt8.toNat_ofNat']
  omega

/-- the vectors are the last two words of the image, and both are the origin -/
theorem wordAt?_writeVectors {cartridge : Cartridge} {origin : Nat} {image : Array UInt8} (hc : 4 ≤ cartridge.capacity)
    (ho : origin < 0x10000) (hs : image.size = cartridge.capacity) :
    wordAt? (cartridge.writeVectors origin image) (cartridge.capacity - 4) = some origin ∧
      wordAt? (cartridge.writeVectors origin image) (cartridge.capacity - 2) = some origin := by
  obtain ⟨tail, htail⟩ : ∃ tail, cartridge.capacity = tail + 4 := ⟨cartridge.capacity - 4, by omega⟩
  have hroom : cartridge.room = tail := by
    rw [room, htail]
    rfl
  have hfour : tail + 4 - 4 = tail := by omega
  have htwo : tail + 4 - 2 = tail + 2 := by omega
  rw [htail] at hs ⊢
  rw [hfour, htwo, wordAt?_eq_some_iff, wordAt?_eq_some_iff]
  constructor
  · refine ⟨_, _, ?_, ?_, origin_bytes ho⟩
    · simp [writeVectors, hroom, hs]
    · simp [writeVectors, hroom, hs]
  · refine ⟨_, _, ?_, ?_, origin_bytes ho⟩
    · simp [writeVectors, hroom, hs]
    · simp [writeVectors, hroom, hs]

/-! ## Images and faults -/

section Packing

variable {cartridge : Cartridge} {length origin : Nat} {bytes : Memory}

theorem Packed.unique {image other : Array UInt8} (h : cartridge.Packed length origin bytes image)
    (ho : cartridge.Packed length origin bytes other) : image = other := by
  obtain ⟨⟨hc, _⟩, _⟩ := origin_eq_ok_iff.1 h.origin_eq
  have hreset := wordAt?_unique h.reset ho.reset
  have hinterrupt := wordAt?_unique h.interrupt ho.interrupt
  apply Array.ext_getElem?
  intro i
  by_cases hbelow : i < cartridge.capacity - 4
  · rw [h.content i hbelow, ho.content i hbelow]
  · by_cases hout : cartridge.capacity ≤ i
    · have hsize : image.size ≤ i := by rwa [h.size_eq]
      have hother : other.size ≤ i := by rwa [ho.size_eq]
      rw [Array.getElem?_eq_none hsize, Array.getElem?_eq_none hother]
    · obtain rfl | rfl | rfl | rfl : i = cartridge.capacity - 4 ∨ i = cartridge.capacity - 4 + 1 ∨
          i = cartridge.capacity - 2 ∨ i = cartridge.capacity - 2 + 1 := by omega
      · exact hreset.1
      · exact hreset.2
      · exact hinterrupt.1
      · exact hinterrupt.2

theorem pack_packed (ho : cartridge.origin = .ok origin) (hf : length ≤ cartridge.capacity - 4)
    (h : ∀ address ∈ bytes, cartridge.Holds origin address) :
    ∃ image, cartridge.pack length bytes = .ok image ∧ cartridge.Packed length origin bytes image := by
  obtain ⟨⟨hc, _⟩, _, _, horigin⟩ := origin_eq_ok_iff.1 ho
  have hfits := ensureFits_eq_ok_iff.2 hf
  obtain ⟨image, hpack, hsize, hcontent⟩ := pack_eq_ok ho hfits h
  have hfilled := Except.ok.inj ((pack_of_inside ho hfits h).symm.trans hpack)
  have hvectors := wordAt?_writeVectors hc (show origin < 0x10000 by omega)
    (show (placeAll origin bytes.toList (Array.replicate cartridge.capacity 0)).size = _ by simp)
  rw [hfilled] at hvectors
  exact ⟨image, hpack, ho, hf, h, hsize, hcontent, hvectors.1, hvectors.2⟩

theorem pack_of_packed {image : Array UInt8} (h : cartridge.Packed length origin bytes image) :
    cartridge.pack length bytes = .ok image := by
  obtain ⟨other, hpack, hother⟩ := pack_packed h.origin_eq h.fits h.inside
  rw [hpack, hother.unique h]

theorem pack_of_unpackable {fault : Fault} (h : cartridge.Unpackable length bytes fault) :
    cartridge.pack length bytes = .error fault := by
  cases h with
  | origin h =>
    rw [pack, h]
    rfl
  | room ho h =>
    have hfits : cartridge.ensureFits length = .error (.programTooLarge length (cartridge.capacity - 4)) :=
      if_neg (Nat.not_le.2 h)
    rw [pack, ho, ok_bind, hfits]
    rfl
  | outside ho hf hm h hleast =>
    obtain ⟨before, byte, after, hsplit, hbefore⟩ := toList_split hm hleast
    rw [pack, ho, ok_bind, ensureFits_eq_ok_iff.2 hf, ok_bind, hsplit, foldlM_place_outside _ hbefore h]
    rfl

theorem packed_or_unpackable (cartridge : Cartridge) (length : Nat) (bytes : Memory) :
    (∃ image origin, cartridge.Packed length origin bytes image) ∨
      ∃ fault, cartridge.Unpackable length bytes fault := by
  cases ho : cartridge.origin with
  | error fault => exact .inr ⟨fault, .origin ho⟩
  | ok origin =>
    by_cases hf : length ≤ cartridge.capacity - 4
    · by_cases h : ∀ address ∈ bytes, cartridge.Holds origin address
      · obtain ⟨image, _, hpacked⟩ := pack_packed ho hf h
        exact .inl ⟨image, origin, hpacked⟩
      · obtain ⟨address, hm, houtside, hleast⟩ := exists_least_outside h
        exact .inr ⟨_, .outside ho hf hm houtside hleast⟩
    · exact .inr ⟨_, .room ho (Nat.not_le.1 hf)⟩

theorem pack_eq_ok_iff {image : Array UInt8} :
    cartridge.pack length bytes = .ok image ↔ ∃ origin, cartridge.Packed length origin bytes image := by
  constructor
  · intro hpack
    rcases packed_or_unpackable cartridge length bytes with ⟨other, origin, h⟩ | ⟨fault, h⟩
    · rw [pack_of_packed h] at hpack
      cases hpack
      exact ⟨origin, h⟩
    · rw [pack_of_unpackable h] at hpack
      cases hpack
  · rintro ⟨origin, h⟩
    exact pack_of_packed h

theorem pack_eq_error_iff {fault : Fault} :
    cartridge.pack length bytes = .error fault ↔ cartridge.Unpackable length bytes fault := by
  constructor
  · intro hpack
    rcases packed_or_unpackable cartridge length bytes with ⟨image, origin, h⟩ | ⟨cause, h⟩
    · rw [pack_of_packed h] at hpack
      cases hpack
    · rw [pack_of_unpackable h] at hpack
      cases hpack
      exact h
  · exact pack_of_unpackable

/-- nothing is lost of what is stored below the vectors -/
theorem Packed.getElem?_eq {image : Array UInt8} (h : cartridge.Packed length origin bytes image)
    (hbelow : ∀ address ∈ bytes, address < origin + (cartridge.capacity - 4)) {address : Nat} {byte : UInt8}
    (hbyte : bytes[address]? = some byte) : image[address - origin]? = some byte := by
  have hm : address ∈ bytes := by
    rw [← Std.TreeMap.isSome_getElem?_iff_mem, hbyte]
    rfl
  have hlow := (h.inside address hm).1
  have hhigh := hbelow address hm
  have hcontent := h.content (address - origin) (by omega)
  rwa [Nat.add_sub_cancel' hlow, hbyte] at hcontent

end Packing

/-- **Packing is exact**, for every cartridge, length and memory. It gives an image just if the cartridge has an origin,
the length leaves room for the vectors and all addresses lie in the cartridge; the image and the fault are those of
`Packed` and `Unpackable`. With 32-bit addresses no operation of it goes out of bounds, and if all of them lie below the
vectors, every stored byte is in the image. -/
theorem pack_iff (cartridge : Cartridge) (length : Nat) (bytes : Memory) :
    ((∃ image, cartridge.pack length bytes = .ok image) ↔
      ∃ origin, cartridge.origin = .ok origin ∧ length ≤ cartridge.capacity - 4 ∧
        ∀ address ∈ bytes, origin ≤ address ∧ address < origin + cartridge.capacity) ∧
    (∀ image, cartridge.pack length bytes = .ok image ↔ ∃ origin, cartridge.Packed length origin bytes image) ∧
    (∀ fault, cartridge.pack length bytes = .error fault ↔ cartridge.Unpackable length bytes fault) ∧
    ((∀ address ∈ bytes, address < 0x100000000) →
      Strict.pack cartridge length bytes = Strict.reported (cartridge.pack length bytes) ∧
        ∀ trap, Strict.pack cartridge length bytes ≠ .error (.trap trap)) ∧
    ∀ image origin, cartridge.pack length bytes = .ok image → cartridge.origin = .ok origin →
      (∀ address ∈ bytes, address < origin + (cartridge.capacity - 4)) →
      ∀ address byte, bytes[address]? = some byte → image[address - origin]? = some byte := by
  refine ⟨⟨?_, ?_⟩, fun image => pack_eq_ok_iff, fun fault => pack_eq_error_iff, ?_, ?_⟩
  · rintro ⟨image, hpack⟩
    obtain ⟨origin, h⟩ := pack_eq_ok_iff.1 hpack
    exact ⟨origin, h.origin_eq, h.fits, h.inside⟩
  · rintro ⟨origin, ho, hf, h⟩
    obtain ⟨image, hpack, _⟩ := pack_packed ho hf h
    exact ⟨image, hpack⟩
  · intro haddresses
    have hstrict := Strict.pack_eq cartridge length haddresses
    refine ⟨hstrict, fun trap => ?_⟩
    rw [hstrict]
    cases cartridge.pack length bytes <;> simp [Strict.reported]
  · intro image origin hpack ho hbelow address byte hbyte
    obtain ⟨start, h⟩ := pack_eq_ok_iff.1 hpack
    have hstart := h.origin_eq
    rw [ho] at hstart
    cases hstart
    exact h.getElem?_eq hbelow hbyte

end Cartridge

end Asm6502
