import Xv6.Storage.Bcache
import Xv6.Lib.Tally

/-!
# What a thread knows of the buffers it uses

A thread that `bget` gave a buffer to knows which block it carries until it gives the buffer back,
because its use is counted in `refcnt`; while it has the sleep-lock it also knows the content. Each
thread's part of this is a `Share`, and `Sharing` relates the cache to the shares of all threads and
to the pins. There is one lemma for each section of the two caches.

Block `(0, 0)` is the identity of the zeroed buffers, so identities are unique on other devices only;
the disk is device 1.
-/

set_option linter.unusedSectionVars false

namespace Xv6

structure Share (n : Nat) (P : Type) where
  /-- Uses counted in `refcnt` without the sleep-lock. -/
  pending : Fin n → Nat
  locked : Finset (Fin n)
  key : Fin n → Nat × Nat
  content : Fin n → P

namespace Share

variable {n : Nat} {P : Type}

def idle (content : Fin n → P) : Share n P := ⟨fun _ => 0, ∅, fun _ => (0, 0), content⟩

def uses (share : Share n P) (b : Fin n) : Nat :=
  share.pending b + if b ∈ share.locked then 1 else 0

/-- After the locked part of `bget`. -/
def get (share : Share n P) (b : Fin n) (key : Nat × Nat) : Share n P :=
  { share with
    pending := Function.update share.pending b (share.pending b + 1)
    key := Function.update share.key b key }

/-- After `acquiresleep`. -/
def lock (share : Share n P) (b : Fin n) (content : P) : Share n P :=
  { share with
    pending := Function.update share.pending b (share.pending b - 1)
    locked := insert b share.locked
    content := Function.update share.content b content }

def store (share : Share n P) (b : Fin n) (content : P) : Share n P :=
  { share with content := Function.update share.content b content }

/-- After `releasesleep`. -/
def unlock (share : Share n P) (b : Fin n) : Share n P :=
  { share with
    pending := Function.update share.pending b (share.pending b + 1)
    locked := share.locked.erase b }

/-- After the rest of `brelse`. -/
def drop (share : Share n P) (b : Fin n) : Share n P :=
  { share with pending := Function.update share.pending b (share.pending b - 1) }

section Uses

variable (share : Share n P) (b b' : Fin n)

theorem uses_get (key : Nat × Nat) :
    (share.get b key).uses b' = share.uses b' + if b' = b then 1 else 0 := by
  have hpending : (share.get b key).pending b' = share.pending b' + if b' = b then 1 else 0 := by
    by_cases hb : b' = b
    · subst hb
      simp [get]
    · simp [get, hb]
  by_cases hmem : b' ∈ share.locked
  · have hmem' : b' ∈ (share.get b key).locked := hmem
    simp only [uses, hpending, hmem, hmem', if_true]
    omega
  · have hmem' : b' ∉ (share.get b key).locked := hmem
    simp only [uses, hpending, hmem, hmem', if_false, Nat.add_zero]

theorem uses_lock {b : Fin n} (content : P) (hpending : 0 < share.pending b)
    (hfree : b ∉ share.locked) : (share.lock b content).uses b' = share.uses b' := by
  by_cases hb : b' = b
  · subst hb
    simp [uses, lock, hfree]
    omega
  · simp [uses, lock, hb]

theorem uses_unlock {b : Fin n} (hlocked : b ∈ share.locked) :
    (share.unlock b).uses b' = share.uses b' := by
  by_cases hb : b' = b
  · subst hb
    simp [uses, unlock, hlocked]
  · simp [uses, unlock, hb]

theorem uses_drop {b : Fin n} (hpending : 0 < share.pending b) :
    (share.drop b).uses b' + (if b' = b then 1 else 0) = share.uses b' := by
  have hsame : (share.drop b).pending b' + (if b' = b then 1 else 0) = share.pending b' := by
    by_cases hb : b' = b
    · subst hb
      simp [drop]
      omega
    · simp [drop, hb]
  by_cases hmem : b' ∈ share.locked
  · have hmem' : b' ∈ (share.drop b).locked := hmem
    simp only [uses, hmem, hmem', if_true]
    omega
  · have hmem' : b' ∉ (share.drop b).locked := hmem
    simp only [uses, hmem, hmem', if_false]
    omega

end Uses

/-! ### What a thread has before and after -/

structure Keeps (share after : Share n P) : Prop where
  pending : after.pending = share.pending
  locked : after.locked = share.locked
  key : ∀ b ∈ share.locked, after.key b = share.key b
  content : ∀ b ∈ share.locked, after.content b = share.content b

theorem Keeps.refl (share : Share n P) : share.Keeps share :=
  ⟨rfl, rfl, fun _ _ => rfl, fun _ _ => rfl⟩

theorem Keeps.trans {first second third : Share n P} (h : first.Keeps second)
    (h' : second.Keeps third) : first.Keeps third where
  pending := h'.pending.trans h.pending
  locked := h'.locked.trans h.locked
  key b hb := (h'.key b (h.locked ▸ hb)).trans (h.key b hb)
  content b hb := (h'.content b (h.locked ▸ hb)).trans (h.content b hb)

theorem Keeps.store {share after : Share n P} (h : share.Keeps after) (b : Fin n) (content : P) :
    (share.store b content).Keeps (after.store b content) where
  pending := h.pending
  locked := h.locked
  key := h.key
  content b' hb' := by
    simp only [Share.store]
    by_cases hb : b' = b
    · subst hb
      rw [Function.update_self, Function.update_self]
    · rw [Function.update_of_ne hb, Function.update_of_ne hb]
      exact h.content b' hb'

structure Takes (share : Share n P) (b : Fin n) (key : Nat × Nat) (content : P)
    (after : Share n P) : Prop where
  free : b ∉ share.locked
  pending : after.pending = share.pending
  locked : after.locked = insert b share.locked
  key_self : after.key b = key
  content_self : after.content b = content
  key : ∀ b' ∈ share.locked, after.key b' = share.key b'
  content : ∀ b' ∈ share.locked, after.content b' = share.content b'

namespace Takes

variable {share mid after : Share n P} {b b' : Fin n} {key key' : Nat × Nat} {content content' : P}

theorem get_lock (hfree : b ∉ share.locked) (key : Nat × Nat) (content : P) :
    share.Takes b key content ((share.get b key).lock b content) := by
  have hne : ∀ b' ∈ share.locked, b' ≠ b := by
    rintro b' hb' rfl
    exact hfree hb'
  refine ⟨hfree, ?_, rfl, Function.update_self .., Function.update_self .., fun b' hb' => ?_,
    fun b' hb' => ?_⟩
  · simp [get, lock]
  · exact Function.update_of_ne (hne b' hb') ..
  · exact Function.update_of_ne (hne b' hb') ..

theorem mem (h : share.Takes b key content after) : b ∈ after.locked := by
  rw [h.locked]
  exact Finset.mem_insert_self _ _

theorem mem_of_mem (h : share.Takes b key content after) (hb' : b' ∈ share.locked) :
    b' ∈ after.locked := by
  rw [h.locked]
  exact Finset.mem_insert_of_mem hb'

theorem ne (h : share.Takes b key content after) (hb' : b' ∈ share.locked) : b' ≠ b := by
  rintro rfl
  exact h.free hb'

theorem store (h : share.Takes b key content after) (content' : P) :
    share.Takes b key content' (after.store b content') where
  free := h.free
  pending := h.pending
  locked := h.locked
  key_self := h.key_self
  content_self := Function.update_self ..
  key := h.key
  content b' hb' := (Function.update_of_ne (h.ne hb') ..).trans (h.content b' hb')

theorem keeps (h : share.Takes b key content mid) (hkeeps : mid.Keeps after) :
    share.Takes b key content after where
  free := h.free
  pending := hkeeps.pending.trans h.pending
  locked := hkeeps.locked.trans h.locked
  key_self := (hkeeps.key b h.mem).trans h.key_self
  content_self := (hkeeps.content b h.mem).trans h.content_self
  key b' hb' := (hkeeps.key b' (h.mem_of_mem hb')).trans (h.key b' hb')
  content b' hb' := (hkeeps.content b' (h.mem_of_mem hb')).trans (h.content b' hb')

theorem release (h : share.Takes b key content after) : share.Keeps ((after.unlock b).drop b) where
  pending := by
    simp only [unlock, drop]
    rw [Function.update_self, Function.update_idem, Nat.add_sub_cancel, Function.update_eq_self,
      h.pending]
  locked := by
    simp only [unlock, drop]
    rw [h.locked, Finset.erase_insert h.free]
  key := h.key
  content := h.content

theorem release_first (h : share.Takes b key content mid) (h' : mid.Takes b' key' content' after) :
    share.Takes b' key' content' ((after.unlock b).drop b) where
  free hmem := h'.free (h.mem_of_mem hmem)
  pending := by
    simp only [unlock, drop]
    rw [Function.update_self, Function.update_idem, Nat.add_sub_cancel, Function.update_eq_self,
      h'.pending, h.pending]
  locked := by
    have hne : b' ≠ b := fun hb => h'.free (hb ▸ h.mem)
    have hfree : b ∉ insert b' share.locked := by
      simp [hne.symm, h.free]
    simp only [unlock, drop]
    rw [h'.locked, h.locked, Finset.insert_comm, Finset.erase_insert hfree]
  key_self := h'.key_self
  content_self := h'.content_self
  key x hx := (h'.key x (h.mem_of_mem hx)).trans (h.key x hx)
  content x hx := (h'.content x (h.mem_of_mem hx)).trans (h.content x hx)

theorem swap (h : share.Takes b key content mid) (h' : mid.Takes b' key' content' after) :
    ∃ mid', share.Takes b' key' content' mid' ∧ mid'.Takes b key content after := by
  have hfirst := h.release_first h'
  have hne : b ≠ b' := h'.ne h.mem
  refine ⟨_, hfirst, ?_, h'.pending.trans (h.pending.trans hfirst.pending.symm), ?_, ?_, ?_,
    fun x _ => rfl, fun x _ => rfl⟩
  · rw [hfirst.locked]
    simp [hne, h.free]
  · rw [h'.locked, h.locked, hfirst.locked, Finset.insert_comm]
  · exact (h'.key b h.mem).trans h.key_self
  · exact (h'.content b h.mem).trans h.content_self

end Takes

end Share

variable {n : Nat} {ι P : Type} [DecidableEq ι]

theorem Bcache.bget_cases {recycle : P → P} {cache cache' : Bcache n ι P} {dev blockno : Nat}
    {b : Fin n} (hbget : cache.bget recycle dev blockno = some (b, cache')) :
    (cache.cached dev blockno = some b ∧
      cache' = cache.setBuf b { cache.buf b with refcnt := (cache.buf b).refcnt + 1 }) ∨
    (cache.cached dev blockno = none ∧ cache.unused = some b ∧
      cache' = cache.setBuf b { cache.buf b with
        dev, blockno, content := recycle (cache.buf b).content, refcnt := 1 }) := by
  unfold Bcache.bget at hbget
  split at hbget
  · next hcached =>
      cases hbget
      exact Or.inl ⟨hcached, rfl⟩
  · next hcached =>
      split at hbget
      · next hunused =>
          cases hbget
          exact Or.inr ⟨hcached, hunused, rfl⟩
      · cases hbget

/-- The buffers, the threads' shares of them and the pins fit together. -/
structure Sharing [Fintype ι] (cache : Bcache n ι P) (share : ι → Share n P) (pins : Fin n → Nat) :
    Prop where
  list : ∃ nodes, cache.list.IsRing nodes ∧ ∀ b, b ∈ nodes
  refcnt : ∀ b, (cache.buf b).refcnt = (∑ who, (share who).uses b) + pins b
  owner : ∀ who b, (cache.buf b).owner = some who ↔ b ∈ (share who).locked
  key : ∀ who b, 0 < (share who).uses b → (cache.buf b).key = (share who).key b
  content : ∀ who b, b ∈ (share who).locked → (cache.buf b).content = (share who).content b
  unique : ∀ b b', (cache.buf b).dev ≠ 0 → (cache.buf b).key = (cache.buf b').key → b = b'

namespace Sharing

variable [Fintype ι] {cache cache' : Bcache n ι P} {share : ι → Share n P} {pins : Fin n → Nat}
  {who : ι} {b : Fin n}

theorem refcnt_pos (h : Sharing cache share pins) (huses : 0 < (share who).uses b) :
    0 < (cache.buf b).refcnt := by
  have hle := Tally.le_sum share (fun share => share.uses b) who
  have hrefcnt := h.refcnt b
  omega

theorem uses_pos_of_locked {share : Share n P} (hlocked : b ∈ share.locked) : 0 < share.uses b := by
  simp [Share.uses, hlocked]

theorem key_of_locked (h : Sharing cache share pins) (hlocked : b ∈ (share who).locked) :
    (cache.buf b).key = (share who).key b := h.key who b (uses_pos_of_locked hlocked)

theorem eq_of_locked (h : Sharing cache share pins) {other : ι} (hwho : b ∈ (share who).locked)
    (hother : b ∈ (share other).locked) : other = who := by
  have howner := (h.owner who b).mpr hwho
  rw [(h.owner other b).mpr hother, Option.some.injEq] at howner
  exact howner

theorem uses_eq_zero (h : Sharing cache share pins) (hrefcnt : (cache.buf b).refcnt = 0) (who : ι) :
    (share who).uses b = 0 := by
  by_contra huses
  have hpos := h.refcnt_pos (Nat.pos_of_ne_zero huses)
  omega

theorem update (h : Sharing cache share pins) {buf : Buf ι P} {changed : Share n P}
    (hlist : ∃ nodes, cache'.list.IsRing nodes ∧ ∀ b, b ∈ nodes)
    (hbuf : cache'.buf = Function.update cache.buf b buf)
    (hrefcnt : buf.refcnt + (share who).uses b = (cache.buf b).refcnt + changed.uses b)
    (huses : ∀ b', b' ≠ b → changed.uses b' = (share who).uses b')
    (howner : ∀ other, buf.owner = some other ↔
      b ∈ (Function.update share who changed other).locked)
    (hlocked : ∀ b', b' ≠ b → (b' ∈ changed.locked ↔ b' ∈ (share who).locked))
    (hid : buf.key = (cache.buf b).key ∨ (cache.buf b).refcnt = 0 ∧
      ∀ b', (cache.buf b').key ≠ buf.key)
    (hkey : 0 < changed.uses b → buf.key = changed.key b)
    (hkeys : ∀ b', b' ≠ b → changed.key b' = (share who).key b')
    (hstored : buf.content = (cache.buf b).content ∨ ∀ other, other ≠ who →
      b ∉ (share other).locked)
    (hcontent : b ∈ changed.locked → buf.content = changed.content b)
    (hcontents : ∀ b', b' ≠ b → changed.content b' = (share who).content b') :
    Sharing cache' (Function.update share who changed) pins where
  list := hlist
  refcnt b' := by
    have htotal := Tally.sum_update share (fun share => share.uses b') who changed
    have hbefore := h.refcnt b'
    rw [hbuf]
    by_cases hb : b' = b
    · subst hb
      rw [Function.update_self]
      omega
    · have hsame := huses b' hb
      rw [Function.update_of_ne hb]
      omega
  owner other b' := by
    rw [hbuf]
    by_cases hb : b' = b
    · subst hb
      rw [Function.update_self]
      exact howner other
    · rw [Function.update_of_ne hb, h.owner]
      by_cases hother : other = who
      · subst hother
        rw [Function.update_self]
        exact (hlocked b' hb).symm
      · rw [Function.update_of_ne hother]
  key other b' := by
    rw [hbuf]
    by_cases hother : other = who
    · subst hother
      rw [Function.update_self]
      by_cases hb : b' = b
      · subst hb
        rw [Function.update_self]
        exact hkey
      · rw [Function.update_of_ne hb, huses b' hb, hkeys b' hb]
        exact h.key other b'
    · rw [Function.update_of_ne hother]
      intro hpos
      by_cases hb : b' = b
      · subst hb
        rw [Function.update_self]
        obtain hsame | ⟨hzero, -⟩ := hid
        · exact hsame.trans (h.key other b' hpos)
        · have hused := h.uses_eq_zero hzero other
          omega
      · rw [Function.update_of_ne hb]
        exact h.key other b' hpos
  content other b' := by
    rw [hbuf]
    by_cases hother : other = who
    · subst hother
      rw [Function.update_self]
      by_cases hb : b' = b
      · subst hb
        rw [Function.update_self]
        exact hcontent
      · rw [Function.update_of_ne hb, hlocked b' hb, hcontents b' hb]
        exact h.content other b'
    · rw [Function.update_of_ne hother]
      intro hmem
      by_cases hb : b' = b
      · subst hb
        rw [Function.update_self]
        obtain hsame | hfree := hstored
        · exact hsame.trans (h.content other b' hmem)
        · exact absurd hmem (hfree other hother)
      · rw [Function.update_of_ne hb]
        exact h.content other b' hmem
  unique x y hdev hsame := by
    rw [hbuf] at hdev hsame
    by_cases hx : x = b
    · by_cases hy : y = b
      · rw [hx, hy]
      · rw [hx, Function.update_self] at hdev hsame
        rw [Function.update_of_ne hy] at hsame
        obtain hold | ⟨-, hnew⟩ := hid
        · refine hx.trans (h.unique b y ?_ (hold.symm.trans hsame))
          rwa [← show buf.dev = (cache.buf b).dev from congrArg Prod.fst hold]
        · exact absurd hsame.symm (hnew y)
    · rw [Function.update_of_ne hx] at hdev hsame
      by_cases hy : y = b
      · rw [hy, Function.update_self] at hsame
        obtain hold | ⟨-, hnew⟩ := hid
        · exact (h.unique x b hdev (hsame.trans hold)).trans hy.symm
        · exact absurd hsame (hnew x)
      · rw [Function.update_of_ne hy] at hsame
        exact h.unique x y hdev hsame

theorem key_ne_of_cached_eq_none (h : Sharing cache share pins) {dev blockno : Nat}
    (hcached : cache.cached dev blockno = none) (b : Fin n) :
    (cache.buf b).key ≠ (dev, blockno) := by
  obtain ⟨nodes, hring, hcomplete⟩ := h.list
  rw [Bcache.cached, hring.scanNext, List.find?_eq_none] at hcached
  · simpa [Buf.key] using hcached b (hcomplete b)
  · have hle := hring.nodup.length_le_card
    simp at hle
    omega

theorem key_of_cached (h : Sharing cache share pins) {dev blockno : Nat}
    (hcached : cache.cached dev blockno = some b) : (cache.buf b).key = (dev, blockno) := by
  obtain ⟨nodes, hring, -⟩ := h.list
  rw [Bcache.cached, hring.scanNext] at hcached
  · simpa [Buf.key] using List.find?_some hcached
  · have hle := hring.nodup.length_le_card
    simp at hle
    omega

theorem refcnt_of_unused (h : Sharing cache share pins) (hunused : cache.unused = some b) :
    (cache.buf b).refcnt = 0 := by
  obtain ⟨nodes, hring, -⟩ := h.list
  rw [Bcache.unused, hring.scanPrev] at hunused
  · simpa using List.find?_some hunused
  · have hle := hring.nodup.length_le_card
    simp at hle
    omega

section Sections

variable (h : Sharing cache share pins)
include h

theorem bget {recycle : P → P} {dev blockno : Nat}
    (hbget : cache.bget recycle dev blockno = some (b, cache')) :
    Sharing cache' (Function.update share who ((share who).get b (dev, blockno))) pins := by
  have hlocked : ∀ other, (Function.update share who ((share who).get b (dev, blockno))
      other).locked = (share other).locked := by
    intro other
    by_cases hother : other = who
    · subst hother
      rw [Function.update_self]
      rfl
    · rw [Function.update_of_ne hother]
  have hself : ((share who).get b (dev, blockno)).key b = (dev, blockno) := Function.update_self ..
  obtain ⟨hcached, rfl⟩ | ⟨hcached, hunused, rfl⟩ := Bcache.bget_cases hbget
  · have hkey := h.key_of_cached hcached
    refine h.update h.list rfl ?_ (fun b' hb => ?_) (fun other => ?_) (fun b' _ => Iff.rfl)
      (Or.inl rfl) (fun _ => ?_) (fun b' hb => Function.update_of_ne hb ..) (Or.inl rfl)
      (h.content who b) (fun b' _ => rfl)
    · simp [Share.uses_get]
      omega
    · simp [Share.uses_get, hb]
    · rw [hlocked]
      exact h.owner other b
    · rw [hself]
      exact hkey
  · have hzero := h.refcnt_of_unused hunused
    have hfree : ∀ other, b ∉ (share other).locked := by
      intro other hmem
      have hpos := h.refcnt_pos (uses_pos_of_locked hmem)
      omega
    have hnew := h.key_ne_of_cached_eq_none hcached
    refine h.update h.list rfl ?_ (fun b' hb => ?_) (fun other => ?_) (fun b' _ => Iff.rfl)
      (Or.inr ⟨hzero, hnew⟩) (fun _ => hself.symm) (fun b' hb => Function.update_of_ne hb ..)
      (Or.inr fun other _ => hfree other) (fun hmem => absurd hmem (hfree who)) (fun b' _ => rfl)
    · simp [Share.uses_get, hzero, h.uses_eq_zero hzero who]
    · simp [Share.uses_get, hb]
    · rw [hlocked]
      exact h.owner other b

theorem acquiresleep (hpending : 0 < (share who).pending b)
    (hacquire : cache.acquiresleep who b = some cache') :
    Sharing cache' (Function.update share who ((share who).lock b (cache.buf b).content)) pins := by
  unfold Bcache.acquiresleep at hacquire
  split at hacquire
  · cases hacquire
  · next hfree =>
      cases hacquire
      have hnobody : ∀ other, b ∉ (share other).locked := by
        intro other hmem
        rw [← h.owner] at hmem
        simp [hmem] at hfree
      have hpos : 0 < (share who).uses b := by simp [Share.uses]; omega
      have hself : ((share who).lock b (cache.buf b).content).content b = (cache.buf b).content :=
        Function.update_self ..
      refine h.update h.list rfl ?_ (fun b' hb => ?_) (fun other => ?_) (fun b' hb => ?_)
        (Or.inl rfl) (fun _ => h.key who b hpos) (fun b' _ => rfl) (Or.inl rfl)
        (fun _ => hself.symm) (fun b' hb => Function.update_of_ne hb ..)
      · rw [Share.uses_lock _ _ _ hpending (hnobody who)]
      · rw [Share.uses_lock _ _ _ hpending (hnobody who)]
      · by_cases hother : other = who
        · subst hother
          simp [Share.lock]
        · have hne : who ≠ other := Ne.symm hother
          simp [hother, hne, hnobody]
      · simp [Share.lock, hb]

theorem store (hlocked : b ∈ (share who).locked) (content : P) :
    Sharing (cache.setBuf b { cache.buf b with content })
      (Function.update share who ((share who).store b content)) pins := by
  have hmem : ∀ other, (Function.update share who ((share who).store b content) other).locked =
      (share other).locked := by
    intro other
    by_cases hother : other = who
    · subst hother
      rw [Function.update_self]
      rfl
    · rw [Function.update_of_ne hother]
  have hself : ((share who).store b content).content b = content := Function.update_self ..
  refine h.update h.list rfl rfl (fun b' _ => rfl) (fun other => ?_) (fun b' _ => Iff.rfl)
    (Or.inl rfl) (h.key who b) (fun b' _ => rfl)
    (Or.inr fun other hother hheld => hother (h.eq_of_locked hlocked hheld))
    (fun _ => hself.symm) (fun b' hb => Function.update_of_ne hb ..)
  rw [hmem]
  exact h.owner other b

theorem releasesleep (hlocked : b ∈ (share who).locked) :
    Sharing (cache.releasesleep b) (Function.update share who ((share who).unlock b)) pins := by
  have hpos := uses_pos_of_locked hlocked
  refine h.update h.list rfl ?_ (fun b' hb => ?_) (fun other => ?_) (fun b' hb => ?_)
    (Or.inl rfl) (fun _ => h.key who b hpos) (fun b' _ => rfl) (Or.inl rfl)
    (fun hmem => ?_) (fun b' _ => rfl)
  · rw [Share.uses_unlock _ _ hlocked]
  · rw [Share.uses_unlock _ _ hlocked]
  · by_cases hother : other = who
    · subst hother
      simp [Share.unlock]
    · rw [Function.update_of_ne hother]
      have hnot : b ∉ (share other).locked := fun hmem => hother (h.eq_of_locked hlocked hmem)
      simp [hnot]
  · simp [Share.unlock, hb]
  · simp [Share.unlock] at hmem

theorem brelse (hpending : 0 < (share who).pending b) :
    Sharing (cache.brelse b) (Function.update share who ((share who).drop b)) pins := by
  have hbuf : (cache.brelse b).buf = Function.update cache.buf b
      { cache.buf b with refcnt := (cache.buf b).refcnt - 1 } := by
    unfold Bcache.brelse
    dsimp only
    split <;> rfl
  have hpos : 0 < (share who).uses b := by simp [Share.uses]; omega
  have hrefcnt := h.refcnt_pos hpos
  have hlist : ∃ nodes, (cache.brelse b).list.IsRing nodes ∧ ∀ b, b ∈ nodes := by
    obtain ⟨nodes, hring, hcomplete⟩ := h.list
    unfold Bcache.brelse
    dsimp only
    split
    · refine ⟨b :: nodes.erase b, hring.moveToFront (hcomplete b), fun b' => ?_⟩
      by_cases hb : b' = b
      · exact List.mem_cons.mpr (Or.inl hb)
      · exact List.mem_cons.mpr (Or.inr ((List.mem_erase_of_ne hb).mpr (hcomplete b')))
    · exact ⟨nodes, hring, hcomplete⟩
  have hmem : ∀ other, (Function.update share who ((share who).drop b) other).locked =
      (share other).locked := by
    intro other
    by_cases hother : other = who
    · subst hother
      rw [Function.update_self]
      rfl
    · rw [Function.update_of_ne hother]
  refine h.update hlist hbuf ?_ (fun b' hb => ?_) (fun other => ?_) (fun b' _ => Iff.rfl)
    (Or.inl rfl) (fun _ => h.key who b hpos) (fun b' _ => rfl) (Or.inl rfl)
    (h.content who b) (fun b' _ => rfl)
  · have huses := (share who).uses_drop b hpending
    simp only [if_true] at huses ⊢
    omega
  · simpa [hb] using (share who).uses_drop b' hpending
  · rw [hmem]
    exact h.owner other b

theorem setRefcnt {refcnt pinned : Nat} (hrefcnt : refcnt + pins b = (cache.buf b).refcnt + pinned) :
    Sharing (cache.setBuf b { cache.buf b with refcnt }) share
      (Function.update pins b pinned) where
  list := h.list
  refcnt b' := by
    have hbefore := h.refcnt b'
    by_cases hb : b' = b
    · subst hb
      simp
      omega
    · simpa [hb] using hbefore
  owner other b' := by
    by_cases hb : b' = b
    · subst hb
      simpa using h.owner other b'
    · simpa [hb] using h.owner other b'
  key other b' hpos := by
    by_cases hb : b' = b
    · subst hb
      simpa [Buf.key] using h.key other b' hpos
    · simpa [hb] using h.key other b' hpos
  content other b' hmem := by
    by_cases hb : b' = b
    · subst hb
      simpa using h.content other b' hmem
    · simpa [hb] using h.content other b' hmem
  unique x y := by
    have hsame : ∀ z, ((cache.setBuf b { cache.buf b with refcnt }).buf z).key =
        (cache.buf z).key := by
      intro z
      by_cases hz : z = b
      · subst hz
        simp [Buf.key]
      · simp [hz]
    intro hdev hkey
    rw [hsame, hsame] at hkey
    refine h.unique x y ?_ hkey
    rwa [← show _ = (cache.buf x).dev from congrArg Prod.fst (hsame x)]

theorem bpin : Sharing (cache.bpin b) share (Function.update pins b (pins b + 1)) :=
  h.setRefcnt (by omega)

theorem bunpin (hpins : 0 < pins b) :
    Sharing (cache.bunpin b) share (Function.update pins b (pins b - 1)) := by
  have hrefcnt := h.refcnt b
  exact h.setRefcnt (by omega)

end Sections

theorem binit [Inhabited P] (content : Fin n → P) :
    Sharing (Bcache.binit : Bcache n ι P) (fun _ => Share.idle content) fun _ => 0 where
  list := by
    refine ⟨(List.finRange n).reverse, ?_, fun b => by simp⟩
    have hnodup : ((List.finRange n).reverse ++ []).Nodup := by simp [List.nodup_finRange]
    have hring := LinkedRing.IsRing.empty.foldl_pushFront hnodup
    rwa [List.append_nil] at hring
  refcnt b := by simp [Bcache.binit, Buf.zero, Share.idle, Share.uses]
  owner who b := by simp [Bcache.binit, Buf.zero, Share.idle]
  key who b hpos := by simp [Share.idle, Share.uses] at hpos
  content who b hmem := by simp [Share.idle] at hmem
  unique b b' hdev := absurd rfl hdev

end Sharing

end Xv6
