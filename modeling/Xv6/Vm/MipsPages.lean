import Xv6.Vm.Mips

/-!
# Pages of a MIPS page table

What a write of an entry does to the two pages that the entry is for.
-/

namespace Xv6.Vm.Mips

attribute [local instance] neZero_directory neZero_table

/-! ### Halves of entries -/

theorem pteElo_zero (n : Nat) : pteElo 0 n = 0 := by
  unfold pteElo
  rw [BitVec.ofNat_eq_ofNat, BitVec.zero_ushiftRight, BitVec.setWidth_zero]
  rfl

def Valid (elo : Elo) : Prop := elo &&& eloV ≠ 0

instance (elo : Elo) : Decidable (Valid elo) := inferInstanceAs (Decidable (elo &&& eloV ≠ 0))

def Holds (elo : Elo) : Prop := Valid elo ∨ frame elo ≠ 0

instance (elo : Elo) : Decidable (Holds elo) := inferInstanceAs (Decidable (_ ∨ _))

def partner (v : Nat) : Nat := if v % 2 = 0 then v + 1 else v - 1

namespace Pgdir

def half (d : Pgdir) (v : Nat) : Elo := d.elo (v * pgsize)

def table (d : Pgdir) (v : Nat) : Option Table := d.entry (Fin.ofNat 1024 (v / 1024))

end Pgdir

theorem partner_div (v : Nat) : partner v / 2 = v / 2 := by
  unfold partner
  split <;> omega

theorem partner_partner (v : Nat) : partner (partner v) = v := by
  unfold partner
  split <;> split <;> omega

theorem partner_ne (v : Nat) : partner v ≠ v := by
  unfold partner
  split <;> omega

theorem div_two_eq_iff {v w : Nat} : w / 2 = v / 2 ↔ w = v ∨ w = partner v := by
  unfold partner
  constructor
  · intro h
    split <;> omega
  · rintro (rfl | rfl)
    · rfl
    · split <;> omega

theorem pdx_page (v : Nat) : pdx (v * pgsize) = Fin.ofNat 1024 (v / 1024) := by
  have hdiv : v * pgsize / 4194304 = v / 1024 := by
    unfold pgsize
    omega
  rw [pdx, hdiv]

theorem elx_page (v : Nat) : elx (v * pgsize) = v % 2 := by
  unfold elx pgsize
  omega

theorem ptx_page (v : Nat) : ptx (v * pgsize) = Fin.ofNat 512 (v / 2) := by
  have hdiv : v * pgsize / 8192 = v / 2 := by
    unfold pgsize
    omega
  rw [ptx, hdiv]

theorem ofNat_inj {t u : Nat} (ht : t < 1024) (hu : u < 1024) (h : Fin.ofNat 1024 t = Fin.ofNat 1024 u) : t = u := by
  have hval := congrArg Fin.val h
  rwa [Fin.val_ofNat, Fin.val_ofNat, Nat.mod_eq_of_lt ht, Nat.mod_eq_of_lt hu] at hval

theorem pair_iff {v w : Nat} (hv : v < 1048576) (hw : w < 1048576) :
    pdx (w * pgsize) = pdx (v * pgsize) ∧ ptx (w * pgsize) = ptx (v * pgsize) ↔ w / 2 = v / 2 := by
  rw [pdx_page, pdx_page, ptx_page, ptx_page]
  constructor
  · rintro ⟨hdir, htab⟩
    have hdir' := ofNat_inj (by omega) (by omega) hdir
    have htab' := congrArg Fin.val htab
    rw [Fin.val_ofNat, Fin.val_ofNat] at htab'
    omega
  · intro h
    rw [h, show w / 1024 = v / 1024 by omega]
    exact ⟨rfl, rfl⟩

namespace Pgdir

variable (d : Pgdir)

theorem table_eq (v : Nat) : d.entry (pdx (v * pgsize)) = d.table v := by rw [table, pdx_page]

theorem half_of_absent {v : Nat} (h : d.table v = none) : d.half v = 0 := by
  rw [half, elo, pte, table_eq, h]
  exact pteElo_zero _

theorem pte_setPte {v w : Nat} (hv : v < 1048576) (hw : w < 1048576) {t : Table} (ht : d.table v = some t)
    (pte : Pte) : (d.setPte (v * pgsize) pte).pte (w * pgsize) =
      if w / 2 = v / 2 then pte else d.pte (w * pgsize) := by
  rw [← d.table_eq] at ht
  unfold Pgdir.pte setPte
  dsimp only
  rw [ht, Option.map_some]
  by_cases hdir : pdx (w * pgsize) = pdx (v * pgsize)
  · rw [hdir, Function.update_self, Option.elim_some, ht, Option.elim_some]
    dsimp only
    by_cases htab : ptx (w * pgsize) = ptx (v * pgsize)
    · rw [htab, Function.update_self, if_pos ((pair_iff hv hw).mp ⟨hdir, htab⟩)]
    · have hpair : w / 2 ≠ v / 2 := fun h => htab ((pair_iff hv hw).mpr h).2
      rw [Function.update_of_ne htab, if_neg hpair]
  · have hpair : w / 2 ≠ v / 2 := fun h => hdir ((pair_iff hv hw).mpr h).1
    rw [Function.update_of_ne hdir, if_neg hpair]

theorem half_setPte {v w : Nat} (hv : v < 1048576) (hw : w < 1048576) {t : Table} (ht : d.table v = some t)
    (pte : Pte) : (d.setPte (v * pgsize) pte).half w =
      if w / 2 = v / 2 then pteElo pte (w % 2) else d.half w := by
  rw [half, elo, d.pte_setPte hv hw ht, elx_page, apply_ite (fun pte => pteElo pte (w % 2)), half, elo, elx_page]

theorem setPte_entry (va : Nat) (pte : Pte) (i : Fin 1024) :
    ((d.setPte va pte).entry i).map (fun t => (t.page, t.asid)) = (d.entry i).map fun t => (t.page, t.asid) := by
  unfold setPte
  dsimp only
  by_cases hi : i = pdx va
  · rw [hi, Function.update_self, Option.map_map]
    rfl
  · rw [Function.update_of_ne hi]

theorem table_eq_none_iff {d d' : Pgdir}
    (h : ∀ i, (d'.entry i).map (fun t => (t.page, t.asid)) = (d.entry i).map fun t => (t.page, t.asid))
    (i : Fin 1024) : d'.entry i = none ↔ d.entry i = none := by
  rw [← Option.map_eq_none_iff (f := fun t : Table => (t.page, t.asid)), h, Option.map_eq_none_iff]

end Pgdir

end Xv6.Vm.Mips
