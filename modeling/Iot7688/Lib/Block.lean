import Iot7688.Lib.Memory

/-!
Functions on blocks, applied in place to the blocks of a memory one after another, and
folds over the blocks. A memory whose blocks went through a function and its inverse is
what it was.
-/
namespace Iot7688.Lib

abbrev Block (n : ℕ) := Fin n → Byte

namespace Mem

variable {n : ℕ}

def block (m : Mem) (n ofs : ℕ) : Block n := fun i => m (ofs + i)

def setBlock (m : Mem) (ofs : ℕ) (b : Block n) : Mem :=
  fun x => if h : ofs ≤ x ∧ x < ofs + n then b ⟨x - ofs, by omega⟩ else m x

/-- The first k blocks go through the function. -/
def mapBlocks (f : Block n → Block n) : ℕ → Mem → Mem
  | 0, m => m
  | k + 1, m =>
      let done := mapBlocks f k m
      done.setBlock (n * k) (f (done.block n (n * k)))

/-- The first k blocks are taken in, in order. -/
def foldBlocks {δ : Type*} (f : δ → Block n → δ) : ℕ → δ → Mem → δ
  | 0, d, _ => d
  | k + 1, d, m => f (foldBlocks f k d m) (m.block n (n * k))

theorem block_setBlock (m : Mem) (ofs : ℕ) (b : Block n) : (m.setBlock ofs b).block n ofs = b := by
  funext i
  have hi : ofs ≤ ofs + i.1 ∧ ofs + i.1 < ofs + n := ⟨by omega, by omega⟩
  unfold block setBlock
  rw [dif_pos hi]
  congr 1
  apply Fin.ext
  show ofs + i.1 - ofs = i.1
  exact Nat.add_sub_cancel_left _ _

theorem setBlock_outside (m : Mem) {ofs x : ℕ} (b : Block n) (hx : x < ofs ∨ ofs + n ≤ x) :
    m.setBlock ofs b x = m x := by
  unfold setBlock
  rw [dif_neg (by omega)]

theorem block_congr {m m' : Mem} {ofs : ℕ} (h : ∀ x, ofs ≤ x → x < ofs + n → m x = m' x) :
    m.block n ofs = m'.block n ofs := by
  funext i
  exact h _ (by omega) (by omega)

theorem setBlock_block (m m' : Mem) {ofs x : ℕ} (hx : ofs ≤ x ∧ x < ofs + n) :
    m.setBlock ofs (m'.block n ofs) x = m' x := by
  unfold setBlock block
  rw [dif_pos hx]
  congr 1
  exact Nat.add_sub_of_le hx.1

variable {f g : Block n → Block n}

theorem mapBlocks_outside (m : Mem) {k x : ℕ} (hx : n * k ≤ x) : mapBlocks f k m x = m x := by
  induction k with
  | zero => rfl
  | succ k ih =>
    rw [Nat.mul_succ] at hx
    unfold mapBlocks
    rw [setBlock_outside _ _ (.inr hx), ih (by omega)]

/-- A later block is still untouched. -/
theorem block_mapBlocks (m : Mem) (k : ℕ) : (mapBlocks f k m).block n (n * k) = m.block n (n * k) :=
  block_congr fun _ hx _ => mapBlocks_outside m hx

theorem mapBlocks_succ (m : Mem) (k : ℕ) :
    mapBlocks f (k + 1) m = (mapBlocks f k m).setBlock (n * k) (f (m.block n (n * k))) := by
  exact congrArg (fun b => (mapBlocks f k m).setBlock (n * k) (f b)) (block_mapBlocks m k)

theorem mapBlocks_congr {m m' : Mem} {k : ℕ} (h : ∀ x, x < n * k → m x = m' x) {x : ℕ}
    (hx : x < n * k) : mapBlocks f k m x = mapBlocks f k m' x := by
  induction k generalizing x with
  | zero => omega
  | succ k ih =>
    have hmul : n * (k + 1) = n * k + n := Nat.mul_succ n k
    have hblock : m.block n (n * k) = m'.block n (n * k) :=
      block_congr fun y _ hy => h y (by omega)
    rw [mapBlocks_succ, mapBlocks_succ, hblock]
    unfold setBlock
    split
    · rfl
    · exact ih (fun y hy => h y (by omega)) (by omega)

theorem mapBlocks_low (m : Mem) {j k : ℕ} (hjk : j ≤ k) {x : ℕ} (hx : x < n * j) :
    mapBlocks f k m x = mapBlocks f j m x := by
  induction k, hjk using Nat.le_induction with
  | base => rfl
  | succ k hle ih =>
    have hmul : n * j ≤ n * k := Nat.mul_le_mul_left n hle
    rw [mapBlocks_succ, setBlock_outside _ _ (.inl (by omega)), ih]

/-- What one function does to each block, its inverse undoes. -/
theorem mapBlocks_inverse (hgf : ∀ b, g (f b) = b) (m : Mem) (k : ℕ) :
    mapBlocks g k (mapBlocks f k m) = m := by
  induction k with
  | zero => rfl
  | succ k ih =>
    have hlow : ∀ x, x < n * k → mapBlocks f (k + 1) m x = mapBlocks f k m x := fun x hx => by
      rw [mapBlocks_succ]
      exact setBlock_outside _ _ (.inl hx)
    have hblock : (mapBlocks f (k + 1) m).block n (n * k) = f (m.block n (n * k)) := by
      rw [mapBlocks_succ, block_setBlock]
    funext x
    rw [mapBlocks_succ, hblock, hgf]
    by_cases hx : n * k ≤ x ∧ x < n * k + n
    · exact setBlock_block _ m hx
    · rw [setBlock_outside _ _ (by omega)]
      by_cases hlt : x < n * k
      · rw [mapBlocks_congr hlow hlt, ih]
      · rw [mapBlocks_outside _ (by omega), mapBlocks_outside _ (by rw [Nat.mul_succ]; omega)]

theorem foldBlocks_congr {δ : Type*} {f : δ → Block n → δ} {m m' : Mem} {k : ℕ} (d : δ)
    (h : ∀ x, x < n * k → m x = m' x) : foldBlocks f k d m = foldBlocks f k d m' := by
  induction k with
  | zero => rfl
  | succ k ih =>
    have hmul : n * (k + 1) = n * k + n := Nat.mul_succ n k
    have hblock : m.block n (n * k) = m'.block n (n * k) :=
      block_congr fun y _ hy => h y (by omega)
    unfold foldBlocks
    rw [ih fun x hx => h x (by omega), hblock]

end Mem
end Iot7688.Lib
