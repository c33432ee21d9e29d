import NanoRaft.Lib.CString
import NanoRaft.HoldBack

/-!
# The payload of a subscription message

The parser at the beginning of `RedisSubMsgCallback` in `eventloop/RedisChannel.cpp`. A payload
is `ID_openid_expireTime`; two separators are looked for with `strchr`, each search beginning one
place behind the last hit, and the three fields copied with `strncpy` into buffers on the stack.

* `parses_safely_iff`: the payloads whose fields are copied inside their buffers.
-/

namespace NanoRaft

/-- The value of a size after its conversion to `int`. -/
def toInt32 (n : ℕ) : ℤ := (Int32.ofNat n).toInt

/-- `'_'`. -/
def separator : UInt8 := 95

/-- `::strncpy(dst, str + src, n)` with a buffer of `size` bytes, which are 0 before. -/
structure FieldCopy where
  size : ℕ
  src : ℤ
  n : ℤ

namespace Payload

/-- One turn of the loop: the place of the next separator, or the old place again. A search that
begins outside the string, whose last place is the terminator, reads other memory. -/
def nextSeparator (str : Bytes) (iNext : ℤ) : Option ℤ :=
  if 0 ≤ iNext + 1 ∧ iNext + 1 ≤ str.length then
    match CString.strchr str (iNext + 1).toNat separator with
    | some pos => some (toInt32 pos)
    | none => some iNext
  else none

/-- The loop: `a[1]` and `a[2]`. -/
def separators (str : Bytes) : Option (ℤ × ℤ) := do
  let a1 ← nextSeparator str 0
  let a2 ← nextSeparator str a1
  pure (a1, a2)

/-- The calls that fill `ID`, `openid` and `expireTime`; `a[3]` is the length of the reply. -/
def fieldCopies (str : Bytes) (a1 a2 : ℤ) : List FieldCopy :=
  [⟨15, 0, a1⟩, ⟨40, a1 + 1, a2 - a1 - 1⟩, ⟨15, a2 + 1, toInt32 str.length - a2 - 1⟩]

end Payload

/-- The length is not negative, the buffer keeps a NUL, and what is read is the payload's. The
copy may end earlier, at a NUL. -/
structure FieldCopy.Safe (str : Bytes) (c : FieldCopy) : Prop where
  nonneg : 0 ≤ c.n
  fits : c.n ≤ c.size - 1
  inside : ∀ k : ℕ, k < c.n → (∀ j < k, str[(c.src + j).toNat]? ≠ some 0) →
    0 ≤ c.src + k ∧ c.src + k < str.length

namespace Payload

/-- The three fields are copied inside their buffers. -/
def ParsesSafely (str : Bytes) : Prop :=
  ∃ a1 a2, separators str = some (a1, a2) ∧ ∀ c ∈ fieldCopies str a1 a2, c.Safe str

/-- Behind the first byte there are two separators, which cut the payload into fields of at
most 14, 39 and 14 bytes. -/
def Framed (str : Bytes) : Prop :=
  ∃ u v, CString.IsFirst str 1 separator u ∧ CString.IsFirst str (u + 1) separator v ∧
    u ≤ 14 ∧ u < toInt32 v ∧ toInt32 v ≤ u + 40 ∧
    toInt32 v < toInt32 str.length ∧ toInt32 str.length ≤ toInt32 v + 15

variable {str : Bytes}

/-- The conversion does not make a size larger. -/
theorem toInt32_le (n : ℕ) : toInt32 n ≤ n := by
  have hsize : Int32.size = 2 ^ 32 := rfl
  rw [toInt32, Int32.toInt_ofNat', hsize, Int.bmod_def]
  split_ifs <;> omega

/-- A turn of the loop that comes back has found the next separator or stays where it is. -/
theorem nextSeparator_cases {iNext a : ℤ} (h : nextSeparator str iNext = some a) :
    0 ≤ iNext + 1 ∧ iNext + 1 ≤ str.length ∧
      ((∃ pos, CString.IsFirst str (iNext + 1).toNat separator pos ∧ a = toInt32 pos) ∨
        ((∀ pos, ¬ CString.IsFirst str (iNext + 1).toNat separator pos) ∧ a = iNext)) := by
  unfold nextSeparator at h
  split_ifs at h with hin
  refine ⟨hin.1, hin.2, ?_⟩
  cases hchr : CString.strchr str (iNext + 1).toNat separator with
  | some pos =>
    rw [hchr] at h
    exact Or.inl ⟨pos, CString.strchr_eq_some.mp hchr, (Option.some.inj h).symm⟩
  | none =>
    rw [hchr] at h
    refine Or.inr ⟨fun pos hpos => ?_, (Option.some.inj h).symm⟩
    rw [CString.strchr_eq_some.mpr hpos] at hchr
    cases hchr

/-- A copy is safe if its range is, whether or not it ends early. -/
theorem safe_of_range {c : FieldCopy} (hn : 0 ≤ c.n) (hfits : c.n ≤ c.size - 1)
    (hsrc : 0 ≤ c.src) (hend : c.src + c.n ≤ str.length) : c.Safe str :=
  ⟨hn, hfits, fun k hk _ => ⟨by omega, by omega⟩⟩

/-- With two separators the loop finds them. -/
theorem separators_of_first {u v : ℕ} (hu : CString.IsFirst str 1 separator u)
    (hv : CString.IsFirst str (u + 1) separator v) (huv : toInt32 u = u) :
    separators str = some ((u : ℤ), toInt32 v) := by
  have hulen := hu.lt_length
  have hone : nextSeparator str 0 = some (u : ℤ) := by
    unfold nextSeparator
    rw [if_pos ⟨by omega, by omega⟩]
    have hchr : CString.strchr str ((0 : ℤ) + 1).toNat separator = some u :=
      CString.strchr_eq_some.mpr hu
    rw [hchr]
    exact congrArg some huv
  have htwo : nextSeparator str u = some (toInt32 v) := by
    unfold nextSeparator
    rw [if_pos ⟨by omega, by omega⟩]
    have hchr : CString.strchr str ((u : ℤ) + 1).toNat separator = some v :=
      CString.strchr_eq_some.mpr hv
    rw [hchr]
  simp only [separators, hone, htwo, Option.bind_eq_bind, Option.bind_some, Option.pure_def]

/-- **Parsing a payload.** The three copies stay inside payload and buffers exactly if the payload
is framed: a missing separator makes the length of the second one negative. -/
theorem parses_safely_iff : ParsesSafely str ↔ Framed str := by
  constructor
  · rintro ⟨a1, a2, hsep, hall⟩
    obtain ⟨x, hx, hsep⟩ := Option.bind_eq_some_iff.mp hsep
    obtain ⟨y, hy, hsep⟩ := Option.bind_eq_some_iff.mp hsep
    obtain ⟨rfl, rfl⟩ := Prod.mk.inj (Option.some.inj hsep)
    have hid := hall ⟨15, 0, x⟩ (by simp [fieldCopies])
    have hopenid := hall ⟨40, x + 1, y - x - 1⟩ (by simp [fieldCopies])
    have htime := hall ⟨15, y + 1, toInt32 str.length - y - 1⟩ (by simp [fieldCopies])
    have hx0 : 0 ≤ x := hid.nonneg
    have hx14 : x ≤ 15 - 1 := hid.fits
    have hxy : 0 ≤ y - x - 1 := hopenid.nonneg
    have hxy39 : y - x - 1 ≤ 40 - 1 := hopenid.fits
    have hyl : 0 ≤ toInt32 str.length - y - 1 := htime.nonneg
    have hyl14 : toInt32 str.length - y - 1 ≤ 15 - 1 := htime.fits
    -- the second search has found a separator: it has moved on
    obtain ⟨_, _, ⟨v, hv, hyv⟩ | ⟨_, hyx⟩⟩ := nextSeparator_cases hy
    swap
    · omega
    obtain ⟨_, _, ⟨u, hu, hxu⟩ | ⟨hnone, hxz⟩⟩ := nextSeparator_cases hx
    swap
    · -- without a first one it has searched the same bytes again
      rw [hxz] at hv
      exact absurd hv (hnone v)
    have hu' : CString.IsFirst str 1 separator u := hu
    have hule := toInt32_le u
    have huv : x = u := by
      by_contra hne
      -- had the conversion made the first place smaller, that place would be found again
      have hagain : CString.IsFirst str (x + 1).toNat separator u :=
        hu'.restart (by omega) (by omega)
      have heq : v = u := hv.unique hagain
      rw [hyv, heq, ← hxu] at hxy
      omega
    rw [huv] at hv hxy hxy39 hx14
    refine ⟨u, v, hu', ?_, by omega, by omega, by omega, by omega, by omega⟩
    have hcast : ((u : ℤ) + 1).toNat = u + 1 := by omega
    rw [hcast] at hv
    exact hv
  · rintro ⟨u, v, hu, hv, hu14, huv, hv40, hvl, hl15⟩
    have hlen := toInt32_le str.length
    have hvle := toInt32_le v
    have hvlen := hv.lt_length
    have hu32 : toInt32 u = u := Int32.toInt_ofNat_of_lt (by omega)
    refine ⟨u, toInt32 v, separators_of_first hu hv hu32, fun c hc => ?_⟩
    simp only [fieldCopies, List.mem_cons, List.not_mem_nil, or_false] at hc
    rcases hc with rfl | rfl | rfl
    · exact safe_of_range (by simp) (by simp; omega) (le_refl 0) (by simp; omega)
    · exact safe_of_range (by simp; omega) (by simp; omega) (by simp; omega) (by simp; omega)
    · exact safe_of_range (by simp; omega) (by simp; omega) (by simp; omega) (by simp; omega)

/-- `"1"` has no separator: the length for `openid` is -1. -/
theorem overruns_one : ¬ ∀ str, ParsesSafely str := by
  intro hall
  obtain ⟨a1, a2, hsep, hcopies⟩ := hall [49]
  have hfound : separators [49] = some (0, 0) := by decide +kernel
  obtain ⟨rfl, rfl⟩ := Prod.mk.inj (Option.some.inj (hfound.symm.trans hsep))
  have hopenid := hcopies ⟨40, 0 + 1, 0 - 0 - 1⟩ (by simp [fieldCopies])
  exact absurd hopenid.nonneg (by decide)

end Payload
end NanoRaft
