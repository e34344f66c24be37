import Mathlib.Algebra.GroupWithZero.Nat
import Mathlib.Data.Int.Notation
import Mathlib.Data.Nat.Notation

/-! Sums kept in a variable that cannot hold every integer: each result is narrowed to what the
variable holds, and a flag records whether the narrowing ever changed one. -/
namespace XStore.Lib

structure Tally where
  value : ℤ
  exact : Bool
  deriving DecidableEq

namespace Tally

def lit (n : ℕ) : Tally := ⟨n, true⟩

def add (wrap : ℤ → ℤ) (s x : Tally) : Tally where
  value := wrap (s.value + x.value)
  exact := s.exact && x.exact && wrap (s.value + x.value) == s.value + x.value

def convert (wrap : ℤ → ℤ) (s : Tally) : Tally where
  value := wrap s.value
  exact := s.exact && wrap s.value == s.value

/-- The value can be trusted: without a change it is `n`. -/
def Sound (n : ℕ) (s : Tally) : Prop := s.exact = true → s.value = n

/-- A sum that is to be `n`: nothing was changed exactly if `n` is below the limit. -/
structure Tracks (lim n : ℕ) (s : Tally) : Prop where
  sound : s.Sound n
  exact_iff : s.exact = true ↔ n < lim

/-- The variable holds the numbers below `lim`, and changes all others. -/
def Holds (wrap : ℤ → ℤ) (lim : ℕ) : Prop := ∀ n : ℕ, wrap n = n ↔ n < lim

@[simp] theorem value_add (wrap : ℤ → ℤ) (s x : Tally) :
    (s.add wrap x).value = wrap (s.value + x.value) := rfl

@[simp] theorem value_convert (wrap : ℤ → ℤ) (s : Tally) :
    (s.convert wrap).value = wrap s.value := rfl

variable {wrap : ℤ → ℤ} {lim n k : ℕ} {s x : Tally}

theorem sound_lit (n : ℕ) : (lit n).Sound n := fun _ => rfl

theorem tracks_zero (h : 0 < lim) : (lit 0).Tracks lim 0 := ⟨sound_lit 0, iff_of_true rfl h⟩

theorem Tracks.eq (h : s.Tracks lim n) (hn : n < lim) : s = ⟨n, true⟩ := by
  have hexact := h.exact_iff.mpr hn
  obtain ⟨value, exact⟩ := s
  obtain rfl : exact = true := hexact
  obtain rfl : value = n := h.sound rfl
  rfl

/-- One addition. What is added need not be tracked up to the limit of the sum. -/
theorem Tracks.add (hw : Holds wrap lim) (hs : s.Tracks lim n) (hx : x.Sound k)
    (hk : k < lim → x.exact = true) : (s.add wrap x).Tracks lim (n + k) := by
  have hvalue : s.exact = true → x.exact = true → s.value + x.value = (n + k : ℕ) := by
    intro hs' hx'
    rw [hs.sound hs', hx hx', Int.natCast_add]
  constructor
  · intro h
    simp only [Tally.add, Bool.and_eq_true, beq_iff_eq] at h ⊢
    obtain ⟨⟨hs', hx'⟩, hsame⟩ := h
    rw [hsame, hvalue hs' hx']
  · simp only [Tally.add, Bool.and_eq_true, beq_iff_eq]
    constructor
    · rintro ⟨⟨hs', hx'⟩, hsame⟩
      rw [hvalue hs' hx'] at hsame
      exact (hw _).mp hsame
    · intro hlt
      have hs' := hs.exact_iff.mpr (by omega)
      have hx' := hk (by omega)
      refine ⟨⟨hs', hx'⟩, ?_⟩
      rw [hvalue hs' hx']
      exact (hw _).mpr hlt

theorem Tracks.add_tracks (hw : Holds wrap lim) (hs : s.Tracks lim n) (hx : x.Tracks lim k) :
    (s.add wrap x).Tracks lim (n + k) :=
  hs.add hw hx.sound hx.exact_iff.mpr

theorem Tracks.add_lit (hw : Holds wrap lim) (hs : s.Tracks lim n) (k : ℕ) :
    (s.add wrap (lit k)).Tracks lim (n + k) :=
  hs.add hw (sound_lit k) (fun _ => rfl)

theorem Tracks.convert {lim' : ℕ} (hw : Holds wrap lim') (hle : lim ≤ lim')
    (hs : s.Tracks lim n) : (s.convert wrap).Tracks lim n := by
  have hsame : s.exact = true → wrap s.value = s.value := by
    intro h
    have hlt := hs.exact_iff.mp h
    rw [hs.sound h]
    exact (hw n).mpr (by omega)
  constructor
  · intro h
    simp only [Tally.convert, Bool.and_eq_true, beq_iff_eq] at h ⊢
    rw [h.2, hs.sound h.1]
  · simp only [Tally.convert, Bool.and_eq_true, beq_iff_eq]
    rw [← hs.exact_iff]
    exact ⟨fun h => h.1, fun h => ⟨h, hsame h⟩⟩

theorem Tracks.foldlM {ε α : Type} (hw : Holds wrap lim) {f : α → Except ε Tally} {g : α → ℕ}
    (hs : s.Tracks lim n) (cs : List α)
    (hf : ∀ c ∈ cs, ∃ x, f c = .ok x ∧ x.Tracks lim (g c)) :
    ∃ s', cs.foldlM (fun s c => do
        let x ← f c
        pure (s.add wrap x)) s = .ok s' ∧ s'.Tracks lim (n + (cs.map g).sum) := by
  induction cs generalizing s n with
  | nil => exact ⟨s, rfl, by simpa using hs⟩
  | cons c cs ih =>
    obtain ⟨x, hx, htracks⟩ := hf c (by simp)
    obtain ⟨s', hrun, hs'⟩ := ih (hs.add_tracks hw htracks) (fun d hd => hf d (by simp [hd]))
    refine ⟨s', ?_, ?_⟩
    · rw [List.foldlM_cons, hx]
      exact hrun
    · rw [List.map_cons, List.sum_cons, ← Nat.add_assoc]
      exact hs'

end Tally
end XStore.Lib
