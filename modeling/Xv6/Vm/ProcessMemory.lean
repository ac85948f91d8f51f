import Xv6.Vm.Processes

/-!
# The memory of a process

What a process has between its calls: the memory that its page table leads to, and the page of its
trapframe. A call works on the first and carries the second along. To make a process takes both, and
to free it gives both back.
-/

namespace Xv6.Vm

variable {I W R ι : Type} {ram : Ram} {frame : R → Nat} {space : R → Owned I W → Prop}
  {holds : R → Owned I W → Prop} {p : R} {own rest : Owned I W} {slots : Set ι}

/-- Memory that goes with a page table, and the page of the trapframe. -/
structure HasMemory (ram : Ram) (frame : R → Nat) (space : R → Owned I W → Prop) (p : R)
    (own : Owned I W) : Prop where
  has : ram.Has (frame p)
  split : ∃ user words, own = user.union (Heap.single (frame p) words) ∧
    user.Disjoint (Heap.single (frame p) words) ∧ space p user

theorem Ram.Has.ne_zero {i : Nat} (h : ram.Has i) : i ≠ 0 :=
  Nat.ne_of_gt (Nat.lt_of_lt_of_le ram.first_pos h.1)

theorem wp_kalloc_single :
    (kalloc false : Code I W (Option Nat)).wp (rule ram fun _ => True) Heap.empty fun mem own =>
      (mem = none ∧ own = Heap.empty) ∨
      ∃ t words, mem = some t ∧ ram.Has t ∧ own = Heap.single t words := by
  rw [← bind_pure (kalloc false), Program.wp_bind, wp_kalloc]
  exact ⟨fun _ => Or.inl ⟨rfl, rfl⟩, fun t words hram _ => Or.inr ⟨t, words, rfl, hram, rfl⟩⟩

theorem wp_kfree_single {t : Nat} {words : I → W} (hram : ram.Has t) :
    (kfree ram t).wp (rule ram fun _ => True) (Heap.single t words) fun _ own' =>
      own' = Heap.empty := by
  rw [wp_kfree hram]
  exact ⟨⟨words, Heap.set_self⟩, Heap.erase_set rfl⟩

theorem rests_of_holds {me : ι} (h : holds p own) :
    Rests holds me (some p) ⟨own.union Heap.empty, {me}⟩ := by
  rw [Heap.union_empty]
  exact ⟨h, rfl⟩

namespace HasMemory

theorem of_space {user : Owned I W} {words : I → W} (hspace : space p user)
    (hram : ram.Has (frame p)) (hdisjoint : user.Disjoint (Heap.single (frame p) words)) :
    HasMemory ram frame space p (user.union (Heap.single (frame p) words)) :=
  ⟨hram, user, words, rfl, hdisjoint, hspace⟩

theorem wp_user {α β : Type} {code : Code I W α} {f : α → Kernel I W R ι β}
    {Q : α → Owned I W → Prop} {post : β → Holding I W ι → Prop}
    (h : HasMemory ram frame space p own) (hdisjoint : own.Disjoint rest)
    (hcode : ∀ {user}, space p user → code.wp (rule ram fun _ => True) user Q)
    (hpost : ∀ value user words, Q value user → user.Disjoint (Heap.single (frame p) words) →
      (user.union (Heap.single (frame p) words)).Disjoint rest →
      (f value).wp (procRule ram holds)
        ⟨(user.union (Heap.single (frame p) words)).union rest, slots⟩ post) :
    (lift code >>= f).wp (procRule ram holds) ⟨own.union rest, slots⟩ post := by
  obtain ⟨-, user, words, rfl, hsingle, hspace⟩ := h
  rw [Heap.union_assoc]
  apply wp_lift_frame (hsingle.assoc hdisjoint) (hcode hspace)
  intro value user' hvalue hnext
  obtain ⟨hsingle', hdisjoint'⟩ := hnext.of_assoc hdisjoint.of_union_left.2
  rw [← Heap.union_assoc]
  exact hpost value user' words hvalue hsingle' hdisjoint'

theorem wp_free {α : Type} {freeSpace : Code I W Unit} {f : Kernel I W R ι α}
    {post : α → Holding I W ι → Prop} (h : HasMemory ram frame space p own)
    (hdisjoint : own.Disjoint rest)
    (hfree : ∀ {user}, space p user →
      freeSpace.wp (rule ram fun _ => True) user fun _ own' => own' = Heap.empty)
    (hpost : f.wp (procRule ram holds) ⟨rest, slots⟩ post) :
    (lift (kfree ram (frame p)) >>= fun _ => lift freeSpace >>= fun _ => f).wp (procRule ram holds)
      ⟨own.union rest, slots⟩ post := by
  obtain ⟨hram, user, words, rfl, hsingle, hspace⟩ := h
  obtain ⟨huser, -⟩ := hdisjoint.of_union_left
  rw [hsingle.union_comm, Heap.union_assoc]
  rw [hsingle.union_comm] at hdisjoint
  apply wp_lift_frame (hsingle.symm.assoc hdisjoint) (wp_kfree_single hram)
  rintro _ _ rfl -
  rw [Heap.empty_union]
  apply wp_lift_frame huser (hfree hspace)
  rintro _ _ rfl -
  rw [Heap.empty_union]
  exact hpost

end HasMemory

end Xv6.Vm
