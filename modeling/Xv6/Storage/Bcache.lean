import Xv6.Lib.LinkedRing

/-!
# Buffers, their list and their reference counts

`bio.c` and `bio-legacy.c` differ in the flags of a buffer and in what reads and writes the disk;
the list of buffers, the reference counts and the sleep-locks are the same code, and are here. A
function that takes `bcache.lock` or the inner lock of a sleep-lock is atomic while it holds it and
is one definition. Reference counts are natural numbers: the kernel has fewer than `2 ^ 32` processes
and pins.
-/

namespace Xv6

/-- `struct buf`, without the links. The sleep-lock is the process that has it, and the flags and
the data, which differ between the two caches, are the content. -/
structure Buf (ι P : Type) where
  dev : Nat
  blockno : Nat
  refcnt : Nat
  owner : Option ι
  content : P

/-- A buffer of the zeroed `bcache`. -/
def Buf.zero {ι P : Type} [Inhabited P] : Buf ι P := ⟨0, 0, 0, none, default⟩

def Buf.key {ι P : Type} (buf : Buf ι P) : Nat × Nat := (buf.dev, buf.blockno)

/-- The buffers and the list through them, most recently used first. -/
structure Bcache (n : Nat) (ι P : Type) where
  buf : Fin n → Buf ι P
  list : LinkedRing (Fin n)

namespace Bcache

set_option linter.unusedSectionVars false

variable {n : Nat} {ι P : Type} [DecidableEq ι]

def binit [Inhabited P] : Bcache n ι P where
  buf := fun _ => .zero
  list := (List.finRange n).foldl LinkedRing.pushFront .empty

def setBuf (cache : Bcache n ι P) (b : Fin n) (buf : Buf ι P) : Bcache n ι P :=
  { cache with buf := Function.update cache.buf b buf }

@[simp]
theorem setBuf_buf_self (cache : Bcache n ι P) (b : Fin n) (buf : Buf ι P) :
    (cache.setBuf b buf).buf b = buf := Function.update_self ..

@[simp]
theorem setBuf_buf_of_ne (cache : Bcache n ι P) {b b' : Fin n} (buf : Buf ι P) (hne : b' ≠ b) :
    (cache.setBuf b buf).buf b' = cache.buf b' := Function.update_of_ne hne ..

@[simp]
theorem setBuf_list (cache : Bcache n ι P) (b : Fin n) (buf : Buf ι P) :
    (cache.setBuf b buf).list = cache.list := rfl

/-- The first loop of `bget`: is the block already cached? -/
def cached (cache : Bcache n ι P) (dev blockno : Nat) : Option (Fin n) :=
  cache.list.scanNext (n + 1) fun b => (cache.buf b).dev = dev ∧ (cache.buf b).blockno = blockno

/-- The second loop of `bget`: the least recently used unused buffer. -/
def unused (cache : Bcache n ι P) : Option (Fin n) :=
  cache.list.scanPrev (n + 1) fun b => (cache.buf b).refcnt = 0

/-- The locked part of `bget`; `acquiresleep` follows. `recycle` is what it does to the content of
the buffer it recycles. `none` is the panic "bget: no buffers". -/
def bget (recycle : P → P) (cache : Bcache n ι P) (dev blockno : Nat) :
    Option (Fin n × Bcache n ι P) :=
  match cache.cached dev blockno with
  | some b => some (b, cache.setBuf b
      { cache.buf b with refcnt := (cache.buf b).refcnt + 1 })
  | none =>
      match cache.unused with
      | some b => some (b, cache.setBuf b
          { cache.buf b with dev, blockno, content := recycle (cache.buf b).content, refcnt := 1 })
      | none => none

/-- One pass of the loop of `acquiresleep`: `none` where the caller sleeps. -/
def acquiresleep (cache : Bcache n ι P) (who : ι) (b : Fin n) : Option (Bcache n ι P) :=
  if (cache.buf b).owner.isSome then none
  else some (cache.setBuf b { cache.buf b with owner := some who })

def holdingsleep (cache : Bcache n ι P) (who : ι) (b : Fin n) : Bool :=
  (cache.buf b).owner = some who

def releasesleep (cache : Bcache n ι P) (b : Fin n) : Bcache n ι P :=
  cache.setBuf b { cache.buf b with owner := none }

/-- The part of `brelse` under `bcache.lock`, after `releasesleep`. -/
def brelse (cache : Bcache n ι P) (b : Fin n) : Bcache n ι P :=
  let cache := cache.setBuf b { cache.buf b with refcnt := (cache.buf b).refcnt - 1 }
  if (cache.buf b).refcnt = 0 then
    -- no one is waiting for it.
    { cache with list := cache.list.moveToFront b }
  else
    cache

def bpin (cache : Bcache n ι P) (b : Fin n) : Bcache n ι P :=
  cache.setBuf b { cache.buf b with refcnt := (cache.buf b).refcnt + 1 }

def bunpin (cache : Bcache n ι P) (b : Fin n) : Bcache n ι P :=
  cache.setBuf b { cache.buf b with refcnt := (cache.buf b).refcnt - 1 }

/-! ### What changes no identity and no content -/

structure Same (cache cache' : Bcache n ι P) : Prop where
  key : ∀ b, (cache'.buf b).key = (cache.buf b).key
  content : ∀ b, (cache'.buf b).content = (cache.buf b).content

theorem Same.blockno {cache cache' : Bcache n ι P} (h : cache.Same cache') (b : Fin n) :
    (cache'.buf b).blockno = (cache.buf b).blockno := congrArg Prod.snd (h.key b)

theorem setBuf_same {cache : Bcache n ι P} {b : Fin n} {buf : Buf ι P}
    (hkey : buf.key = (cache.buf b).key) (hcontent : buf.content = (cache.buf b).content) :
    cache.Same (cache.setBuf b buf) := by
  refine ⟨fun b' => ?_, fun b' => ?_⟩
  · by_cases hb : b' = b
    · subst hb
      rwa [setBuf_buf_self]
    · rw [setBuf_buf_of_ne _ _ hb]
  · by_cases hb : b' = b
    · subst hb
      rwa [setBuf_buf_self]
    · rw [setBuf_buf_of_ne _ _ hb]

theorem acquiresleep_same {cache cache' : Bcache n ι P} {who : ι} {b : Fin n}
    (hacquire : cache.acquiresleep who b = some cache') : cache.Same cache' := by
  unfold acquiresleep at hacquire
  split at hacquire
  · cases hacquire
  · cases hacquire
    exact setBuf_same rfl rfl

theorem owner_of_acquiresleep {cache cache' : Bcache n ι P} {who : ι} {b : Fin n}
    (hacquire : cache.acquiresleep who b = some cache') : (cache.buf b).owner = none := by
  unfold acquiresleep at hacquire
  split at hacquire
  · cases hacquire
  · next hfree => simpa using hfree

theorem releasesleep_same (cache : Bcache n ι P) (b : Fin n) : cache.Same (cache.releasesleep b) :=
  setBuf_same rfl rfl

theorem brelse_same (cache : Bcache n ι P) (b : Fin n) : cache.Same (cache.brelse b) := by
  have hsame : cache.Same (cache.setBuf b
      { cache.buf b with refcnt := (cache.buf b).refcnt - 1 }) := setBuf_same rfl rfl
  unfold brelse
  dsimp only
  split
  · exact ⟨hsame.key, hsame.content⟩
  · exact hsame

theorem bpin_same (cache : Bcache n ι P) (b : Fin n) : cache.Same (cache.bpin b) :=
  setBuf_same rfl rfl

theorem bunpin_same (cache : Bcache n ι P) (b : Fin n) : cache.Same (cache.bunpin b) :=
  setBuf_same rfl rfl

end Bcache

end Xv6
