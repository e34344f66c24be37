import Mathlib.Data.List.Basic
import Mathlib.Tactic.Ring

/-! Unsigned integers as bytes, the least significant one first. -/
namespace XStore.Lib

abbrev Byte := Fin 256

instance neZero_byte : NeZero 256 := ⟨by decide⟩

def byteOf (x i : ℕ) : Byte := ⟨x / 256 ^ i % 256, Nat.mod_lt _ (by decide)⟩

def toBytes (w x : ℕ) : List Byte := (List.range w).map (byteOf x)

def ofBytes : List Byte → ℕ
  | [] => 0
  | b :: bs => b.val + 256 * ofBytes bs

@[simp] theorem length_toBytes (w x : ℕ) : (toBytes w x).length = w := by
  simp [toBytes]

theorem toBytes_succ (w x : ℕ) : toBytes (w + 1) x = byteOf x 0 :: toBytes w (x / 256) := by
  simp only [toBytes, List.range_succ_eq_map, List.map_cons, List.map_map]
  congr 1
  refine List.map_congr_left (fun i _ => ?_)
  simp only [Function.comp_apply, byteOf, Nat.succ_eq_add_one, pow_succ', Nat.div_div_eq_div_mul]

theorem ofBytes_toBytes (w x : ℕ) : ofBytes (toBytes w x) = x % 256 ^ w := by
  induction w generalizing x with
  | zero => simp [toBytes, ofBytes, Nat.mod_one]
  | succ w ih =>
    rw [toBytes_succ, ofBytes, ih, pow_succ']
    simp only [byteOf, pow_zero, Nat.div_one]
    rw [Nat.mod_mul]

theorem ofBytes_toBytes_of_lt {w x : ℕ} (h : x < 256 ^ w) : ofBytes (toBytes w x) = x := by
  rw [ofBytes_toBytes, Nat.mod_eq_of_lt h]

theorem ofBytes_lt (bs : List Byte) : ofBytes bs < 256 ^ bs.length := by
  induction bs with
  | nil => simp [ofBytes]
  | cons b bs ih =>
    simp only [ofBytes, List.length_cons, pow_succ']
    have := b.isLt
    omega

theorem toBytes_ofBytes (bs : List Byte) : toBytes bs.length (ofBytes bs) = bs := by
  induction bs with
  | nil => rfl
  | cons b bs ih =>
    have hdiv : ofBytes (b :: bs) / 256 = ofBytes bs := by
      have := b.isLt
      simp only [ofBytes]
      omega
    rw [List.length_cons, toBytes_succ, hdiv, ih]
    congr 1
    refine Fin.ext ?_
    have := b.isLt
    simp only [byteOf, ofBytes, pow_zero, Nat.div_one]
    omega

theorem toBytes_inj {w x y : ℕ} (hx : x < 256 ^ w) (hy : y < 256 ^ w)
    (h : toBytes w x = toBytes w y) : x = y := by
  rw [← ofBytes_toBytes_of_lt hx, h, ofBytes_toBytes_of_lt hy]

theorem toBytes_add (m n x : ℕ) : toBytes (m + n) x = toBytes m x ++ toBytes n (x / 256 ^ m) := by
  simp only [toBytes, List.range_add, List.map_append, List.map_map]
  congr 1
  refine List.map_congr_left (fun i _ => ?_)
  simp only [Function.comp_apply, byteOf, pow_add, Nat.div_div_eq_div_mul]

theorem toBytes_mod (w x : ℕ) : toBytes w (x % 256 ^ w) = toBytes w x := by
  have hlen := length_toBytes w x
  have hback := toBytes_ofBytes (toBytes w x)
  rw [hlen, ofBytes_toBytes] at hback
  exact hback

/-- Words with one more word before them begin like the words only if all are equal to it. -/
theorem words_prefix_iff {w g : ℕ} (hg : g < 256 ^ w) {xs : List ℕ} (hxs : ∀ x ∈ xs, x < 256 ^ w) :
    xs.flatMap (toBytes w) <+: toBytes w g ++ xs.flatMap (toBytes w) ↔ ∀ x ∈ xs, x = g := by
  induction xs with
  | nil => simp
  | cons x xs ih =>
    have htail := ih (fun y hy => hxs y (List.mem_cons_of_mem x hy))
    rw [List.flatMap_cons, List.forall_mem_cons, ← htail]
    constructor
    · intro h
      obtain ⟨ys, hys⟩ := h
      rw [List.append_assoc] at hys
      obtain ⟨hhead, hrest⟩ := List.append_inj hys (by simp)
      have hx := toBytes_inj (hxs x (by simp)) hg hhead
      rw [hx] at hrest
      exact ⟨hx, ys, hrest⟩
    · intro h
      rw [h.1]
      exact (List.prefix_append_right_inj _).mpr h.2

section Memory
variable {mem : ℕ → Byte} {off : ℕ}

def slice (mem : ℕ → Byte) (off len : ℕ) : List Byte :=
  (List.range len).map (fun i => mem (off + i))

@[simp] theorem length_slice (len : ℕ) : (slice mem off len).length = len := by
  simp [slice]

theorem slice_add (m n : ℕ) :
    slice mem off (m + n) = slice mem off m ++ slice mem (off + m) n := by
  simp only [slice, List.range_add, List.map_append, List.map_map]
  congr 1
  refine List.map_congr_left (fun i _ => ?_)
  simp [Nat.add_assoc]

theorem slice_append_iff (xs ys : List Byte) : slice mem off (xs ++ ys).length = xs ++ ys ↔
    slice mem off xs.length = xs ∧ slice mem (off + xs.length) ys.length = ys := by
  rw [List.length_append, slice_add]
  constructor
  · intro h
    exact List.append_inj h (by simp)
  · intro h
    rw [h.1, h.2]

theorem take_slice {m n : ℕ} (h : m ≤ n) : (slice mem off n).take m = slice mem off m := by
  obtain ⟨k, rfl⟩ := Nat.exists_eq_add_of_le h
  rw [slice_add, List.take_left' (by simp)]

theorem slice_congr {mem' : ℕ → Byte} {off' len : ℕ}
    (h : ∀ i < len, mem (off + i) = mem' (off' + i)) : slice mem off len = slice mem' off' len :=
  List.map_congr_left (fun i hi => h i (List.mem_range.mp hi))

def memcpy (mem : ℕ → Byte) (dst : ℕ) (bs : List Byte) : ℕ → Byte := fun a =>
  if dst ≤ a then (bs[a - dst]?).getD (mem a) else mem a

theorem memcpy_behind {bs : List Byte} {dst a : ℕ} (h : a < dst ∨ dst + bs.length ≤ a) :
    memcpy mem dst bs a = mem a := by
  unfold memcpy
  split
  · rw [List.getElem?_eq_none (by omega), Option.getD_none]
  · rfl

theorem slice_memcpy (bs : List Byte) (dst : ℕ) :
    slice (memcpy mem dst bs) dst bs.length = bs := by
  refine List.ext_getElem (by simp) (fun i h₁ h₂ => ?_)
  simp [slice, memcpy, h₂]

theorem slice_memcpy_apart {bs : List Byte} {dst len : ℕ}
    (h : off + len ≤ dst ∨ dst + bs.length ≤ off) :
    slice (memcpy mem dst bs) off len = slice mem off len :=
  slice_congr (fun i hi => memcpy_behind (by omega))

theorem slice_blocks {f : ℕ → List Byte} {w dst n i : ℕ} (hw : ∀ i, (f i).length = w)
    (hi : i < n) : slice ((List.range n).foldl (fun mem i => memcpy mem (dst + w * i) (f i)) mem)
      (dst + w * i) w = f i := by
  induction n with
  | zero => exact absurd hi (Nat.not_lt_zero i)
  | succ n ih =>
    rw [List.range_succ, List.foldl_append, List.foldl_cons, List.foldl_nil]
    cases Nat.lt_succ_iff_lt_or_eq.mp hi with
    | inl hlt =>
      have hend : w * i + w ≤ w * n := by
        rw [← Nat.mul_succ]
        exact Nat.mul_le_mul_left w hlt
      rw [slice_memcpy_apart (Or.inl (by omega))]
      exact ih hlt
    | inr heq =>
      generalize (List.range n).foldl (fun mem i => memcpy mem (dst + w * i) (f i)) mem = before
      have hlast : slice (memcpy before (dst + w * n) (f n)) (dst + w * n) (f n).length = f n :=
        slice_memcpy _ _
      rw [hw] at hlast
      rw [heq]
      exact hlast

theorem slice_of_flatMap {α : Type} {f : α → List Byte} {w : ℕ} (hw : ∀ x, (f x).length = w)
    (xs : List α) (h : slice mem off (w * xs.length) = xs.flatMap f) {i : ℕ} {x : α}
    (hx : xs[i]? = some x) : slice mem (off + w * i) w = f x := by
  induction xs generalizing off i with
  | nil => simp at hx
  | cons y ys ih =>
    rw [List.length_cons, Nat.mul_succ, Nat.add_comm, slice_add, List.flatMap_cons] at h
    obtain ⟨hhead, htail⟩ := List.append_inj h (by simp [hw])
    cases i with
    | zero =>
      obtain rfl : y = x := by simpa using hx
      simpa using hhead
    | succ i =>
      have hplace : off + w * (i + 1) = off + w + w * i := by
        rw [Nat.mul_succ]
        omega
      rw [hplace]
      exact ih htail (by simpa using hx)

theorem memcpy_append (xs ys : List Byte) (dst : ℕ) :
    memcpy (memcpy mem dst xs) (dst + xs.length) ys = memcpy mem dst (xs ++ ys) := by
  funext a
  unfold memcpy
  by_cases h₁ : dst + xs.length ≤ a
  · have h₂ : dst ≤ a := by omega
    have h₃ : xs.length ≤ a - dst := by omega
    have h₄ : a - (dst + xs.length) = a - dst - xs.length := by omega
    simp [h₁, h₂, List.getElem?_append_right h₃, List.getElem?_eq_none h₃, h₄]
  · by_cases h₂ : dst ≤ a
    · have h₃ : a - dst < xs.length := by omega
      simp [h₁, h₂, List.getElem?_append_left h₃]
    · simp [h₁, h₂]

end Memory

/-- A type whose values are plain bytes: `sizeof` and the object representation. -/
class Plain (α : Type) where
  size : ℕ
  toBytes : α → List Byte
  ofBytes : List Byte → α
  length_toBytes : ∀ a, (toBytes a).length = size
  ofBytes_toBytes : ∀ a, ofBytes (toBytes a) = a

attribute [simp] Plain.length_toBytes Plain.ofBytes_toBytes

/-- A type that may be copied byte by byte. What stands in the padding of an object is no part of
its value, and may be anything after a copy. -/
class Copyable (α : Type) where
  Padding : Type
  nonempty : Nonempty Padding
  size : ℕ
  toBytes : Padding → α → List Byte
  ofBytes : List Byte → α
  length_toBytes : ∀ p a, (toBytes p a).length = size
  ofBytes_toBytes : ∀ p a, ofBytes (toBytes p a) = a

attribute [simp] Copyable.length_toBytes Copyable.ofBytes_toBytes

instance {α : Type} [Plain α] : Copyable α where
  Padding := Unit
  nonempty := ⟨()⟩
  size := Plain.size α
  toBytes _ := Plain.toBytes
  ofBytes := Plain.ofBytes
  length_toBytes _ := Plain.length_toBytes
  ofBytes_toBytes _ := Plain.ofBytes_toBytes

/-- All byte patterns of the right length are values. -/
class AllBytes (α : Type) [Plain α] : Prop where
  toBytes_ofBytes : ∀ bs : List Byte, bs.length = Plain.size α →
    Plain.toBytes (Plain.ofBytes bs : α) = bs

end XStore.Lib
