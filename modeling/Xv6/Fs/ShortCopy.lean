import Xv6.Fs.Content

/-!
# Writes whose source cannot be read

`writei` copies the source block by block into the buffer cache. When `either_copyin` fails, the bytes of the block before the
one that cannot be read are in the buffer already; the buffer is released without `log_write`, and the bytes are not counted
in the result. So the failed copy leaves no trace iff these bytes are those that have been there before (`failed_copy`),
for example because there are none.
-/

namespace Xv6.Fs

open Fallible

/-- The byte of the file at `o`, which is 0 where there is no block. -/
def State.old (sb : Superblock) (s : State) (ip : Fin NINODE) (o : ℕ) : UInt8 :=
  if (s.flush ip).slots sb ((s.itable ip).inum, slotOf (o / BSIZE)) = 0 then 0 else (s.flush ip).byte sb (s.itable ip).inum o

variable {sb : Superblock} {s s' : State} {ip : Fin NINODE} {off n w m tot : ℕ} {src : ℕ → Option UInt8}

/-- What has been written up to `w` bytes: a byte from there on is what it has been. -/
lemma Wrote.old (g : Wrote sb ip src s s' off 0 w w) {o : ℕ} (ge : off + w ≤ o) (lt : o / BSIZE < MAXFILE)
    (ne : (s'.flush ip).slots sb ((s.itable ip).inum, slotOf (o / BSIZE)) ≠ 0) :
    (s'.flush ip).byte sb (s.itable ip).inum o = s.old sb ip o := by
  have all : ∀ i, i < w → (src (0 + i)).isSome := fun i li => by rw [g.written i li]; rfl
  rw [State.old]
  split
  · rename_i zero
    exact g.zero all o zero ne lt ge
  · rename_i nz
    exact g.kept all o nz lt ge

end Xv6.Fs
