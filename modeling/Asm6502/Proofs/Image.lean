/-
Cartridges: origins, room and images.

- `origin_eq`: the three checks behind an origin, in order, and the origin itself.
- `pack_eq_ok`: if all stored addresses lie in the cartridge, packing succeeds; below the vectors the image holds the
  stored bytes, each at its distance from the origin, and zero where nothing is stored.

The image is filled entry by entry. Entries have different addresses, so an entry is never overwritten by a later one
(`getElem?_placeAll`), and a place without an entry keeps its zero (`getElem?_placeAll_of_ne`).
-/
import Asm6502.Cartridge
import Asm6502.Proofs.Lengths

namespace Asm6502.Cartridge

/-! ## Origin and room -/

theorem origin_eq (cartridge : Cartridge) :
    cartridge.origin =
      if 4 ≤ cartridge.capacity ∧ cartridge.capacity ≤ 0x10000 then
        if 1 ≤ cartridge.bankSize ∧ cartridge.bankSize ≤ 0x10000 then
          if (0x10000 - cartridge.capacity) % cartridge.bankSize = 0 then .ok (0x10000 - cartridge.capacity)
          else .error (.notEqual "origin alignment" 0 ((0x10000 - cartridge.capacity) % cartridge.bankSize : Nat))
        else .error (.outOfRange "bank size" cartridge.bankSize 1 0x10000)
      else .error (.outOfRange "image capacity" cartridge.capacity 4 0x10000) := by
  rw [origin]
  by_cases hc : 4 ≤ cartridge.capacity ∧ cartridge.capacity ≤ 0x10000
  · rw [Check.inRange_eq_ok (by simp only [vectorBytes, addressSpace]; omega), ok_bind, if_pos hc]
    by_cases hb : 1 ≤ cartridge.bankSize ∧ cartridge.bankSize ≤ 0x10000
    · rw [Check.inRange_eq_ok (by simp only [addressSpace]; omega), ok_bind, if_pos hb]
      dsimp only
      by_cases ha : (0x10000 - cartridge.capacity) % cartridge.bankSize = 0
      · rw [Check.equal_eq_ok (by simp only [addressSpace]; omega), ok_bind, if_pos ha]
        rfl
      · rw [Check.equal_eq_error (by simp only [addressSpace]; omega), error_bind, if_neg ha]
        rfl
    · rw [Check.inRange_eq_error (by simp only [addressSpace]; omega), error_bind, if_neg hb]
      rfl
  · rw [Check.inRange_eq_error (by simp only [vectorBytes, addressSpace]; omega), error_bind, if_neg hc]
    rfl

theorem origin_eq_ok_iff {cartridge : Cartridge} {origin : Nat} :
    cartridge.origin = .ok origin ↔
      (4 ≤ cartridge.capacity ∧ cartridge.capacity ≤ 0x10000) ∧
      (1 ≤ cartridge.bankSize ∧ cartridge.bankSize ≤ 0x10000) ∧
      (0x10000 - cartridge.capacity) % cartridge.bankSize = 0 ∧ origin = 0x10000 - cartridge.capacity := by
  rw [origin_eq]
  by_cases hc : 4 ≤ cartridge.capacity ∧ cartridge.capacity ≤ 0x10000
  · by_cases hb : 1 ≤ cartridge.bankSize ∧ cartridge.bankSize ≤ 0x10000
    · by_cases ha : (0x10000 - cartridge.capacity) % cartridge.bankSize = 0
      · simp [hc, hb, ha, eq_comm]
      · simp [hc, hb, ha]
    · rw [if_pos hc, if_neg hb]
      exact ⟨fun h => (by cases h), fun h => absurd h.2.1 hb⟩
  · rw [if_neg hc]
    exact ⟨fun h => (by cases h), fun h => absurd h.1 hc⟩

theorem ensureFits_eq_ok_iff {cartridge : Cartridge} {length : Nat} :
    cartridge.ensureFits length = .ok () ↔ length ≤ cartridge.capacity - 4 := by
  rw [ensureFits]
  split
  · simp_all [room, vectorBytes]
  · simp_all [room, vectorBytes]

/-! ## Filling the image -/

def placeAll (origin : Nat) (entries : List (Nat × UInt8)) (image : Array UInt8) : Array UInt8 :=
  entries.foldl (fun image entry => image.setIfInBounds (entry.1 - origin) entry.2) image

theorem foldlM_place {cartridge : Cartridge} {origin : Nat} {entries : List (Nat × UInt8)} {image : Array UInt8}
    (h : ∀ entry ∈ entries, origin ≤ entry.1 ∧ entry.1 < origin + cartridge.capacity) :
    entries.foldlM (cartridge.place origin) image = .ok (placeAll origin entries image) := by
  induction entries generalizing image with
  | nil => rfl
  | cons entry entries ih =>
    have hin := h entry List.mem_cons_self
    have hplace : cartridge.place origin image entry = .ok (image.setIfInBounds (entry.1 - origin) entry.2) := by
      rw [place, Check.inRange_eq_ok (by omega)]
      rfl
    rw [List.foldlM_cons, hplace, ok_bind, ih fun e he => h e (List.mem_cons_of_mem _ he)]
    rfl

theorem size_of_foldlM_place {cartridge : Cartridge} {origin : Nat} {entries : List (Nat × UInt8)}
    {image filled : Array UInt8} (h : entries.foldlM (cartridge.place origin) image = .ok filled) :
    filled.size = image.size := by
  induction entries generalizing image with
  | nil =>
    cases h
    rfl
  | cons entry entries ih =>
    rw [List.foldlM_cons] at h
    obtain ⟨next, hnext, h⟩ := bind_eq_ok_iff.1 h
    obtain ⟨_, _, hnext⟩ := bind_eq_ok_iff.1 hnext
    cases hnext
    rw [ih h, Array.size_setIfInBounds]

@[simp] theorem size_placeAll (origin : Nat) (entries : List (Nat × UInt8)) (image : Array UInt8) :
    (placeAll origin entries image).size = image.size := by
  induction entries generalizing image with
  | nil => rfl
  | cons entry entries ih =>
    have := ih (image.setIfInBounds (entry.1 - origin) entry.2)
    rwa [Array.size_setIfInBounds] at this

theorem getElem?_placeAll_of_ne {origin place : Nat} {entries : List (Nat × UInt8)} {image : Array UInt8}
    (h : ∀ entry ∈ entries, entry.1 - origin ≠ place) : (placeAll origin entries image)[place]? = image[place]? := by
  induction entries generalizing image with
  | nil => rfl
  | cons entry entries ih =>
    have hrest : (placeAll origin entries (image.setIfInBounds (entry.1 - origin) entry.2))[place]? =
        (image.setIfInBounds (entry.1 - origin) entry.2)[place]? := ih fun e he => h e (List.mem_cons_of_mem _ he)
    rw [Array.getElem?_setIfInBounds_ne (h entry List.mem_cons_self)] at hrest
    exact hrest

theorem getElem?_placeAll {origin : Nat} {entries : List (Nat × UInt8)} {image : Array UInt8} {entry : Nat × UInt8}
    (hd : entries.Pairwise fun a b => a.1 ≠ b.1) (hin : ∀ e ∈ entries, origin ≤ e.1)
    (hm : entry ∈ entries) (hp : entry.1 - origin < image.size) :
    (placeAll origin entries image)[entry.1 - origin]? = some entry.2 := by
  induction entries generalizing image with
  | nil => cases hm
  | cons first entries ih =>
    obtain ⟨hfirst, hd⟩ := List.pairwise_cons.1 hd
    rcases List.mem_cons.1 hm with rfl | hm
    · have hrest : (placeAll origin entries (image.setIfInBounds (entry.1 - origin) entry.2))[entry.1 - origin]? =
          (image.setIfInBounds (entry.1 - origin) entry.2)[entry.1 - origin]? := by
        apply getElem?_placeAll_of_ne
        intro e he heq
        have h1 := hin entry List.mem_cons_self
        have h2 := hin e (List.mem_cons_of_mem _ he)
        exact hfirst e he (by omega)
      rw [Array.getElem?_setIfInBounds_self_of_lt hp] at hrest
      exact hrest
    · exact ih hd (fun e he => hin e (List.mem_cons_of_mem _ he)) hm (by simpa using hp)

theorem getElem?_writeVectors (cartridge : Cartridge) (origin : Nat) (image : Array UInt8) {place : Nat}
    (h : place < cartridge.room) : (cartridge.writeVectors origin image)[place]? = image[place]? := by
  simp only [writeVectors]
  rw [Array.getElem?_setIfInBounds_ne (by omega), Array.getElem?_setIfInBounds_ne (by omega),
    Array.getElem?_setIfInBounds_ne (by omega), Array.getElem?_setIfInBounds_ne (by omega)]

@[simp] theorem size_writeVectors (cartridge : Cartridge) (origin : Nat) (image : Array UInt8) :
    (cartridge.writeVectors origin image).size = image.size := by
  simp [writeVectors]

theorem mem_of_mem_toList {bytes : Memory} {entry : Nat × UInt8} (h : entry ∈ bytes.toList) : entry.1 ∈ bytes := by
  rw [← Std.TreeMap.isSome_getElem?_iff_mem, Std.TreeMap.mem_toList_iff_getElem?_eq_some.1 h]
  rfl

/-- if all stored addresses lie in the cartridge, the image is filled and gets its vectors -/
theorem pack_of_inside {cartridge : Cartridge} {origin length : Nat} {bytes : Memory}
    (ho : cartridge.origin = .ok origin) (hf : cartridge.ensureFits length = .ok ())
    (h : ∀ address ∈ bytes, origin ≤ address ∧ address < origin + cartridge.capacity) :
    cartridge.pack length bytes =
      .ok (cartridge.writeVectors origin (placeAll origin bytes.toList (Array.replicate cartridge.capacity 0))) := by
  rw [pack, ho, ok_bind, hf, ok_bind, foldlM_place fun entry he => h entry.1 (mem_of_mem_toList he), ok_bind]
  rfl

/-- **Packing loses nothing**: below the vectors the image is the memory, with zeros in the gaps. -/
theorem pack_eq_ok {cartridge : Cartridge} {origin length : Nat} {bytes : Memory} (ho : cartridge.origin = .ok origin)
    (hf : cartridge.ensureFits length = .ok ())
    (h : ∀ address ∈ bytes, origin ≤ address ∧ address < origin + cartridge.capacity) :
    ∃ image, cartridge.pack length bytes = .ok image ∧ image.size = cartridge.capacity ∧
      ∀ place < cartridge.room, image[place]? = some (bytes[origin + place]?.getD 0) := by
  have hmem : ∀ entry ∈ bytes.toList, bytes[entry.1]? = some entry.2 := fun entry he =>
    Std.TreeMap.mem_toList_iff_getElem?_eq_some.1 he
  have hentries : ∀ entry ∈ bytes.toList, origin ≤ entry.1 ∧ entry.1 < origin + cartridge.capacity := fun entry he =>
    h entry.1 (mem_of_mem_toList he)
  refine ⟨_, pack_of_inside ho hf h, by simp, ?_⟩
  intro place hp
  have hsize : place < (Array.replicate cartridge.capacity (0 : UInt8)).size := by
    have : cartridge.room ≤ cartridge.capacity := Nat.sub_le _ _
    simp only [Array.size_replicate]
    omega
  rw [getElem?_writeVectors _ _ _ hp]
  cases hb : bytes[origin + place]? with
  | some byte =>
    have hd : bytes.toList.Pairwise fun a b => a.1 ≠ b.1 := by
      have := Std.TreeMap.distinct_keys_toList (t := bytes)
      simpa using this
    have hplace : origin + place - origin = place := Nat.add_sub_cancel_left origin place
    have hget : (placeAll origin bytes.toList (Array.replicate cartridge.capacity 0))[origin + place - origin]? =
        some byte :=
      getElem?_placeAll hd (fun e he => (hentries e he).1) (Std.TreeMap.mem_toList_iff_getElem?_eq_some.2 hb)
        (by rw [hplace]; exact hsize)
    rw [hplace] at hget
    exact hget
  | none =>
    have hne : ∀ entry ∈ bytes.toList, entry.1 - origin ≠ place := by
      intro entry he heq
      have hin := hentries entry he
      have hat : entry.1 = origin + place := by omega
      have := hmem entry he
      rw [hat, hb] at this
      cases this
    rw [getElem?_placeAll_of_ne hne, Array.getElem?_eq_getElem hsize]
    simp

end Asm6502.Cartridge
