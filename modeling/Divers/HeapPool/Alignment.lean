import Divers.HeapPool.Overflow

/-! The helpers on which the layout rests, over all words: the check of an alignment, rounding up to
one, and the alignment that also suits the word in front of a chunk. -/

open Divers.Library

namespace Divers.HeapPool

/-- The alignments that are refused. -/
theorem heapPoolCreate_einval_iff (pagesize : SizeT) (mmap : SizeT → Option SizeT) (m : Bytes)
    (nb size _align : SizeT) :
    heapPoolCreate pagesize mmap m nb size _align = .error .einval ↔
      _align ≠ 0 ∧ ¬ ∃ k, _align.toNat = 2 ^ k := by
  by_cases haccepted : Accepted _align
  · refine iff_of_false (fun hrefused ↦ ?_) fun hbad ↦
      hbad.2 ((isPowerOfTwo_iff hbad.1).mp (haccepted hbad.1))
    -- behind the check, `EINVAL` is not an error that can come up
    cases hmap : mmap (poolAllocsize pagesize nb size (poolHolesize size _align)
        (poolAlignment _align)) with
    | none =>
        rw [heapPoolCreate_unmapped haccepted hmap m] at hrefused
        cases hrefused
    | some ret =>
        obtain ⟨-, hdies⟩ | ⟨-, hrun⟩ := heapPoolCreate_mapped haccepted hmap m
        · rw [hdies] at hrefused
          cases hrefused
        · cases hrun _ hrefused
  · have hbad : _align ≠ 0 ∧ ¬ isPowerOfTwo _align = true := by
      rwa [Accepted, Classical.not_imp] at haccepted
    rw [heapPoolCreate, if_pos hbad]
    exact iff_of_true rfl ⟨hbad.1, fun hpow ↦ hbad.2 ((isPowerOfTwo_iff hbad.1).mpr hpow)⟩

theorem align_isLeast {x y : SizeT} {k : ℕ} (hy : y.toNat = 2 ^ k)
    (hfit : x.toNat + y.toNat - 1 < 2 ^ 64) :
    IsLeast {z | y.toNat ∣ z ∧ x.toNat ≤ z} (align x y).toNat := by
  have hypos : 0 < y.toNat := hy ▸ Nat.two_pow_pos k
  rw [align_toNat hy (by omega)]
  exact isLeast_roundUp x.toNat hypos

theorem computeNewAlignment_isLeast {a : SizeT} (haccepted : Accepted a) (ha : a ≠ 0) :
    IsLeast {z | (∃ k, z = 2 ^ k) ∧ sizeofSizeT.toNat ≤ z ∧ a.toNat ∣ z}
      (computeNewAlignment a).toNat := by
  obtain ⟨k, hk⟩ := (isPowerOfTwo_iff ha).mp (haccepted ha)
  rw [computeNewAlignment_toNat hk, hk]
  exact isLeast_two_pow 3 k

/-- Exactly the non-zero words that are no powers of two are refused as alignments; rounding up and
the new alignment are the least words that they should be. -/
theorem heapPool_alignments :
    (∀ (pagesize : SizeT) (mmap : SizeT → Option SizeT) (m : Bytes) (nb size _align : SizeT),
      heapPoolCreate pagesize mmap m nb size _align = .error .einval ↔
        _align ≠ 0 ∧ ¬ ∃ k, _align.toNat = 2 ^ k) ∧
      (∀ x y : SizeT, (∃ k, y.toNat = 2 ^ k) → x.toNat + y.toNat - 1 < 2 ^ 64 →
        IsLeast {z | y.toNat ∣ z ∧ x.toNat ≤ z} (align x y).toNat) ∧
      ∀ a : SizeT, Accepted a → a ≠ 0 →
        IsLeast {z | (∃ k, z = 2 ^ k) ∧ sizeofSizeT.toNat ≤ z ∧ a.toNat ∣ z}
          (computeNewAlignment a).toNat :=
  ⟨heapPoolCreate_einval_iff, fun _ _ hy hfit ↦ hy.elim fun _ hk ↦ align_isLeast hk hfit,
    fun _ haccepted ha ↦ computeNewAlignment_isLeast haccepted ha⟩

theorem heapPool_alignments_small :
    heapPoolCreate 4096 (fun _ ↦ none) (fun _ ↦ 0) 4 16 12 = .error .einval ∧
      IsLeast {z | 8 ∣ z ∧ 13 ≤ z} 16 ∧ IsLeast {z | (∃ k, z = 2 ^ k) ∧ 8 ≤ z ∧ 4 ∣ z} 8 := by
  have htwelve : ¬ ∃ k, (12 : SizeT).toNat = 2 ^ k := by
    rw [← isPowerOfTwo_iff (by decide)]
    decide
  exact ⟨(heapPool_alignments.1 _ _ _ _ _ _).mpr ⟨by decide, htwelve⟩,
    heapPool_alignments.2.1 13 8 ⟨3, rfl⟩ (by decide),
    heapPool_alignments.2.2 4 (fun _ ↦ by decide) (by decide)⟩

end Divers.HeapPool
