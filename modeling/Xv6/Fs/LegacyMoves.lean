import Xv6.Fs.LegacySyscalls

/-!
# Where the legacy kernels log

A process calls `log_write` inside a transaction of its own, unless one of four tests goes wrong
outside one: `iput` finds the last reference to an inode without links, `sys_open` truncates a regular
file, and `bmap` finds a hole in `addrs` or in the indirect block. Each function of the file system is
specified by whether it starts and ends in a transaction.
-/

namespace Xv6.Legacy.Fs

variable {limits : Limits}

/-- The tests that a process must not pass outside a transaction of its own. -/
def Allowed (state : State limits) (who : Fin limits.nproc) : (sections limits).Op → Prop
  | .iput i => state.owner = some who ∨ ¬state.Last i
  | .addr i k => state.owner = some who ∨ (state.icache i).addrs k ≠ 0
  | .entry b bn => state.owner = some who ∨
      Bytes.uint 4 (state.kernel.cache.buf b).content.data (4 * bn) ≠ 0
  | .truncates i => state.owner = some who ∨ (state.icache i).type ≠ tFile
  | _ => True

instance (state : State limits) (who : Fin limits.nproc) :
    (op : (sections limits).Op) → Decidable (Allowed state who op)
  | .iput _ | .addr _ _ | .entry _ _ | .truncates _ => inferInstanceAs (Decidable (_ ∨ _))
  | .storage _ | .logWrite _ | .iget _ _ | .idup _ | .ilock _ | .iunlock _ | .ifreed _ | .inode _
  | .setDinode _ _ | .setValid _ | .filealloc | .filedup _ | .fileclose _ | .file _
  | .updateFile _ _ | .trap | .self | .proc _ | .updateProc _ _ | .allocproc | .exited | .wait
  | .outside => isTrue trivial

def rule : Rule (sections limits) Bool
  | .storage .beginTrans, _, Q => Q () true
  | .storage .endTrans, inTrans, Q => inTrans = true ∧ Q () false
  | .storage .busy, inTrans, Q => ∀ busy : Bool, (inTrans = true → busy = true) → Q busy inTrans
  | .storage (.panic message), _, _ => message ≠ "write outside of trans"
  | .logWrite _, inTrans, Q => inTrans = true ∧ Q () inTrans
  | .iput _, inTrans, Q => ∀ found : State.Iput, (inTrans = false → found ≠ .last) → Q found inTrans
  | .addr _ _, inTrans, Q => ∀ addr : Nat, (inTrans = false → addr ≠ 0) → Q addr inTrans
  | .entry _ _, inTrans, Q => ∀ addr : Nat, (inTrans = false → addr ≠ 0) → Q addr inTrans
  | .truncates _, inTrans, Q => ∀ found : Bool, (inTrans = false → found = false) → Q found inTrans
  | _, inTrans, Q => ∀ response, Q response inTrans

theorem rule_monotone : (rule : Rule (sections limits) Bool).Monotone := by
  intro op inTrans post post' hpost h
  cases op with
  | storage op =>
      cases op <;>
        first
        | exact hpost _ _ h
        | exact fun response => hpost _ _ (h response)
        | exact fun busy hbusy => hpost _ _ (h busy hbusy)
        | exact ⟨h.1, hpost _ _ h.2⟩
        | exact h
  | logWrite b => exact ⟨h.1, hpost _ _ h.2⟩
  | iput i => exact fun found hfound => hpost _ _ (h found hfound)
  | addr i k => exact fun addr haddr => hpost _ _ (h addr haddr)
  | entry b bn => exact fun addr haddr => hpost _ _ (h addr haddr)
  | truncates i => exact fun found hfound => hpost _ _ (h found hfound)
  | _ => exact fun response => hpost _ _ (h response)

structure Inv (state : State limits) (inTrans : Fin limits.nproc → Bool) : Prop where
  busy : state.kernel.busy = state.owner.isSome
  owner : ∀ who, inTrans who = true ↔ state.owner = some who

theorem Inv.same {state state' : State limits} {inTrans : Fin limits.nproc → Bool}
    (h : Inv state inTrans) (hbusy : state'.kernel.busy = state.kernel.busy)
    (howner : state'.owner = state.owner) (who : Fin limits.nproc) :
    Inv state' (Function.update inTrans who (inTrans who)) := by
  rw [Function.update_eq_self]
  exact ⟨by rw [hbusy, howner, h.busy], fun other => by rw [howner, h.owner]⟩

/-! ### The sections -/

def Op.Boundary : Op limits → Prop
  | .storage .beginTrans => True
  | .storage .endTrans => True
  | _ => False

def State.SameLog (state state' : State limits) : Prop :=
  state'.kernel.busy = state.kernel.busy ∧ state'.owner = state.owner

section SameLog

variable {state state' : State limits}

theorem State.iget_sameLog {dev inum : Nat} : state.SameLog ((state.iget dev inum).elim state (·.2)) := by
  unfold State.iget
  dsimp only
  split <;> exact ⟨rfl, rfl⟩

theorem State.ilock_sameLog {i : Fin limits.ninode} (hlock : state.ilock i = some state') :
    state.SameLog state' := by
  unfold State.ilock at hlock
  split at hlock
  · cases hlock
  · cases hlock
    exact ⟨rfl, rfl⟩

theorem State.iput_sameLog {i : Fin limits.ninode} : state.SameLog (state.iput i).2 := by
  unfold State.iput
  split
  · split <;> exact ⟨rfl, rfl⟩
  · exact ⟨rfl, rfl⟩

theorem State.filealloc_sameLog : state.SameLog state.filealloc.2 := by
  unfold State.filealloc
  cases (List.finRange limits.nfile).find? fun f => decide ((state.ftable f).ref = 0) <;>
    exact ⟨rfl, rfl⟩

theorem State.fileclose_sameLog {f : Fin limits.nfile} : state.SameLog (state.fileclose f).2 := by
  unfold State.fileclose
  split <;> exact ⟨rfl, rfl⟩

theorem State.allocproc_sameLog : state.SameLog state.allocproc.2 := by
  unfold State.allocproc
  cases (List.finRange limits.nproc).find? fun p => decide ((state.ptable p).state = .unused) <;>
    exact ⟨rfl, rfl⟩

theorem State.wait_sameLog {who : Fin limits.nproc} {killed : Bool}
    {child : Option (Fin limits.nproc)} (hwait : state.wait who killed = some (child, state')) :
    state.SameLog state' := by
  unfold State.wait at hwait
  dsimp only at hwait
  split at hwait
  · cases hwait
    exact ⟨rfl, rfl⟩
  · split at hwait
    · cases hwait
      exact ⟨rfl, rfl⟩
    · cases hwait

end SameLog

theorem legacy_handler_busy {who : Fin limits.nproc} {kernel kernel' : Kernel limits.nbuf _ Bytes}
    {op : Legacy.Op limits.nbuf Bytes} {choice : Nat} {response : op.Resp}
    (hop : ¬(Op.storage op : Op limits).Boundary)
    (hstep : Legacy.handler who kernel op choice = some (response, kernel')) :
    kernel'.busy = kernel.busy := by
  cases op with
  | beginTrans => exact absurd trivial hop
  | endTrans => exact absurd trivial hop
  | bget dev blockno =>
      obtain ⟨found, -, heq⟩ := Option.map_eq_some_iff.mp hstep
      exact congrArg (fun result => result.2.busy) heq.symm
  | acquiresleep b =>
      obtain ⟨found, -, heq⟩ := Option.map_eq_some_iff.mp hstep
      exact congrArg (fun result => result.2.busy) heq.symm
  | panic message => cases hstep
  | _ => exact congrArg (fun result => result.2.busy) (Option.some.inj hstep).symm

theorem handler_sameLog (machine : Machine limits) {who : Fin limits.nproc}
    {state state' : State limits} {op : Op limits} {choice : Nat} {response : op.Resp}
    (hop : ¬op.Boundary) (hstep : handler machine who state op choice = some (response, state')) :
    state.SameLog state' := by
  cases op with
  | storage op =>
      obtain ⟨⟨result, kernel⟩, hkernel, heq⟩ := Option.map_eq_some_iff.mp hstep
      obtain rfl := congrArg Prod.snd heq
      refine ⟨legacy_handler_busy hop hkernel, ?_⟩
      cases op with
      | beginTrans => exact absurd trivial hop
      | endTrans => exact absurd trivial hop
      | _ => rfl
  | iget dev inum =>
      obtain rfl := congrArg Prod.snd (Option.some.inj hstep)
      exact State.iget_sameLog
  | ilock i =>
      obtain ⟨locked, hlocked, heq⟩ := Option.map_eq_some_iff.mp hstep
      obtain rfl := congrArg Prod.snd heq
      exact State.ilock_sameLog hlocked
  | iput i =>
      obtain rfl := congrArg Prod.snd (Option.some.inj hstep)
      exact State.iput_sameLog
  | filealloc =>
      obtain rfl := congrArg Prod.snd (Option.some.inj hstep)
      exact State.filealloc_sameLog
  | filedup f =>
      simp only [handler] at hstep
      split at hstep <;> (cases hstep; exact ⟨rfl, rfl⟩)
  | fileclose f =>
      simp only [handler] at hstep
      split at hstep
      · cases hstep
        exact ⟨rfl, rfl⟩
      · obtain rfl := congrArg Prod.snd (Option.some.inj hstep)
        exact State.fileclose_sameLog
  | trap =>
      simp only [handler] at hstep
      split at hstep
      · cases hstep
        exact ⟨rfl, rfl⟩
      · cases hstep
  | allocproc =>
      obtain rfl := congrArg Prod.snd (Option.some.inj hstep)
      exact State.allocproc_sameLog
  | wait => exact State.wait_sameLog hstep
  | _ =>
      obtain rfl := congrArg Prod.snd (Option.some.inj hstep)
      exact ⟨rfl, rfl⟩

theorem handler_sound (machine : Machine limits) :
    Threads.HandlerSound (handler machine) rule Inv Allowed := by
  intro who state inTrans op choice response state' Q hinv hallowed hrule hstep
  have hout : inTrans who = false → state.owner ≠ some who := by
    intro hfalse howner
    rw [(hinv.owner who).mpr howner] at hfalse
    cases hfalse
  by_cases hop : op.Boundary
  · cases op with
    | storage op =>
        cases op with
        | beginTrans =>
            obtain ⟨result, hresult, heq⟩ := Option.map_eq_some_iff.mp hstep
            simp only [Legacy.handler] at hresult
            split at hresult
            · cases hresult
            next hidle =>
              cases hresult
              cases heq
              refine ⟨true, hrule, rfl, fun other => ?_⟩
              by_cases hother : other = who
              · subst hother
                simp [owner]
              · have hnobody := hinv.busy
                rw [Bool.eq_false_of_not_eq_true hidle] at hnobody
                have hnone := Option.not_isSome_iff_eq_none.mp (by rw [← hnobody]; simp)
                rw [Function.update_of_ne hother, hinv.owner, hnone]
                exact ⟨fun h => (by cases h), fun h => absurd (Option.some.inj h).symm hother⟩
        | endTrans =>
            cases hstep
            refine ⟨false, hrule.2, rfl, fun other => ?_⟩
            by_cases hother : other = who
            · subst hother
              simp [owner]
            · rw [Function.update_of_ne hother, hinv.owner, (hinv.owner who).mp hrule.1]
              exact ⟨fun h => absurd (Option.some.inj h).symm hother, fun h => (by cases h)⟩
        | _ => exact absurd hop id
    | _ => exact absurd hop id
  · obtain ⟨hbusy, howner⟩ := handler_sameLog machine hop hstep
    refine ⟨inTrans who, ?_, hinv.same hbusy howner who⟩
    cases op with
    | storage op =>
        cases op with
        | beginTrans => exact absurd trivial hop
        | endTrans => exact absurd trivial hop
        | busy =>
            cases hstep
            refine hrule _ fun htrue => ?_
            rw [hinv.busy, (hinv.owner who).mp htrue]
            rfl
        | panic message => cases hstep
        | _ => exact hrule response
    | logWrite b => exact hrule.2
    | iput i =>
        obtain rfl := congrArg Prod.fst (Option.some.inj hstep)
        refine hrule _ fun hfalse => ?_
        have hlast : ¬state.Last i := Or.resolve_left hallowed (hout hfalse)
        simp [State.iput, hlast]
    | addr i k =>
        cases hstep
        exact hrule _ fun hfalse => Or.resolve_left hallowed (hout hfalse)
    | entry b bn =>
        cases hstep
        exact hrule _ fun hfalse => Or.resolve_left hallowed (hout hfalse)
    | truncates i =>
        cases hstep
        exact hrule _ fun hfalse => decide_eq_false (Or.resolve_left hallowed (hout hfalse))
    | _ => exact hrule response

/-! ### Programs -/

def Moves {α : Type} (before after : Bool) (program : Code limits α) : Prop :=
  program.wp rule before fun _ inTrans => inTrans = after

namespace Moves

variable {α β : Type} {before mid after : Bool}

theorem ret (value : α) : Moves before before (pure value : Code limits α) := rfl

theorem bind {program : Code limits α} {f : α → Code limits β} (hprogram : Moves before mid program)
    (hf : ∀ value, Moves mid after (f value)) : Moves before after (program >>= f) := by
  refine Program.wp_seq rule_monotone hprogram fun value inTrans hmid => ?_
  rw [hmid]
  exact hf value

theorem ite {condition : Prop} [Decidable condition] {first second : Code limits α}
    (hfirst : Moves before after first) (hsecond : Moves before after second) :
    Moves before after (if condition then first else second) := by
  split
  · exact hfirst
  · exact hsecond

theorem when {condition : Prop} [Decidable condition] {program : Code limits PUnit}
    (hprogram : Moves before before program) :
    Moves before before (Program.when condition program) :=
  ite hprogram (ret _)

theorem elim {value : Option β} {none : Code limits α} {some : β → Code limits α}
    (hnone : Moves before after none) (hsome : ∀ value, Moves before after (some value)) :
    Moves before after (value.elim none some) := by
  cases value with
  | none => exact hnone
  | some value => exact hsome value

theorem perform {op : Op limits} (hrule : ∀ Q, (∀ response, Q response before) → rule op before Q) :
    Moves before before (Fs.perform op) :=
  hrule _ fun _ => rfl

theorem panic {message : String} (hmessage : message ≠ "write outside of trans") :
    Moves before after (Fs.panic message : Code limits α) := hmessage

theorem panicIf {bad : Prop} [Decidable bad] {message : String}
    (hmessage : message ≠ "write outside of trans") :
    Moves before before (Fs.panicIf bad message : Code limits Unit) :=
  when (panic hmessage)

/-! What a test finds outside a transaction. -/

theorem iputDrop {i : Fin limits.ninode} {f : State.Iput → Code limits α}
    (hf : ∀ found, (before = false → found ≠ .last) → Moves before after (f found)) :
    Moves before after (iput.drop i >>= f) := hf

theorem addr {i : Fin limits.ninode} {k : Fin (ndirect + 1)} {f : Nat → Code limits α}
    (hf : ∀ addr, (before = false → addr ≠ 0) → Moves before after (f addr)) :
    Moves before after (Fs.addr i k >>= f) := hf

theorem entry {b : Fin limits.nbuf} {bn : Nat} {f : Nat → Code limits α}
    (hf : ∀ addr, (before = false → addr ≠ 0) → Moves before after (f addr)) :
    Moves before after (Fs.entry b bn >>= f) := hf

theorem truncates {i : Fin limits.ninode} {f : Bool → Code limits α}
    (hf : ∀ found, (before = false → found = false) → Moves before after (f found)) :
    Moves before after (Fs.truncates i >>= f) := hf

end Moves

/-! ### The cache and the log -/

section Storage

variable {α β : Type} {before mid after : Bool}

def Stores (limits : Limits) (before after : Bool) (program : Legacy.Code limits.nbuf Bytes α) : Prop :=
  Moves before after (storage program : Code limits α)

namespace Stores

theorem ret (value : α) : Stores limits before before (pure value) := rfl

theorem bind {program : Legacy.Code limits.nbuf Bytes α} {f : α → Legacy.Code limits.nbuf Bytes β}
    (hprogram : Stores limits before mid program) (hf : ∀ value, Stores limits mid after (f value)) :
    Stores limits before after (program >>= f) := by
  have hstorage : (storage (program >>= f) : Code limits β) =
      storage program >>= fun value => storage (f value) := Program.translate_bind program f
  unfold Stores
  rw [hstorage]
  exact Moves.bind hprogram hf

theorem ite {condition : Prop} [Decidable condition] {first second : Legacy.Code limits.nbuf Bytes α}
    (hfirst : Stores limits before after first) (hsecond : Stores limits before after second) :
    Stores limits before after (if condition then first else second) := by
  split
  · exact hfirst
  · exact hsecond

theorem when {condition : Prop} [Decidable condition] {program : Legacy.Code limits.nbuf Bytes PUnit}
    (hprogram : Stores limits before before program) :
    Stores limits before before (Program.when condition program) :=
  ite hprogram (ret _)

theorem perform {op : Legacy.Op limits.nbuf Bytes}
    (hrule : ∀ Q, (∀ response, Q response before) → rule (.storage op : Op limits) before Q) :
    Stores limits before before (Legacy.perform op) :=
  hrule _ fun _ => rfl

theorem busy {f : Bool → Legacy.Code limits.nbuf Bytes α}
    (hf : ∀ busy, (before = true → busy = true) → Stores limits before after (f busy)) :
    Stores limits before after (Legacy.busy >>= f) := hf

theorem panicIf {bad : Prop} [Decidable bad] {message : String}
    (hmessage : message ≠ "write outside of trans") :
    Stores limits before before (Legacy.panicIf bad message) :=
  when hmessage

theorem forM {rounds : List β} {body : β → Legacy.Code limits.nbuf Bytes PUnit}
    (hbody : ∀ round, Stores limits before before (body round)) :
    Stores limits before before (rounds.forM body) := by
  induction rounds with
  | nil => exact ret _
  | cons round rounds ih => exact bind (hbody round) fun _ => ih

variable (conf : Config Bytes)

theorem iderw (b : Fin limits.nbuf) : Stores limits before before (Legacy.iderw conf b) := by
  refine bind (perform fun _ h => h) fun _ => bind (panicIf (by decide)) fun _ =>
    bind (perform fun _ h => h) fun _ => bind (panicIf (by decide)) fun _ =>
      bind (perform fun _ h => h) fun _ => bind (panicIf (by decide)) fun _ =>
        bind (panicIf (by decide)) fun _ => ite ?_ ?_
  · exact bind (perform fun _ h => h) fun _ => perform fun _ h => h
  · exact bind (perform fun _ h => h) fun _ => perform fun _ h => h

theorem bread (dev blockno : Nat) : Stores limits before before (Legacy.bread conf dev blockno) :=
  bind (perform fun _ h => h) fun b => bind (perform fun _ h => h) fun _ =>
    bind (perform fun _ h => h) fun _ => bind (when (iderw conf b)) fun _ => ret _

theorem bwrite (b : Fin limits.nbuf) : Stores limits before before (Legacy.bwrite conf b) :=
  bind (perform fun _ h => h) fun _ => bind (panicIf (by decide)) fun _ =>
    bind (perform fun _ h => h) fun _ => bind (perform fun _ h => h) fun _ => iderw conf b

theorem brelse (b : Fin limits.nbuf) : Stores limits before before (Legacy.brelse b) :=
  bind (perform fun _ h => h) fun _ => bind (panicIf (by decide)) fun _ =>
    bind (perform fun _ h => h) fun _ => perform fun _ h => h

theorem setData (b : Fin limits.nbuf) (data : Bytes) :
    Stores limits before before (Legacy.setData b data) :=
  bind (perform fun _ h => h) fun _ => perform fun _ h => h

theorem writeHead : Stores limits before before (Legacy.writeHead conf) :=
  bind (bread conf _ _) fun buf => bind (perform fun _ h => h) fun _ =>
    bind (perform fun _ h => h) fun _ => bind (setData _ _) fun _ =>
      bind (bwrite conf buf) fun _ => brelse buf

theorem installTrans (lh : Logheader) : Stores limits before before (Legacy.installTrans conf lh) :=
  forM fun _ => bind (bread conf _ _) fun lbuf => bind (bread conf _ _) fun dbuf =>
    bind (perform fun _ h => h) fun _ => bind (setData _ _) fun _ =>
      bind (bwrite conf dbuf) fun _ => bind (brelse lbuf) fun _ => brelse dbuf

theorem recoverFromLog (disk : Recovery.Disk Bytes) :
    Stores limits before before (Recovery.recoverFromLog disk) := by
  refine bind ?_ fun _ => bind (perform fun _ h => h) fun lh => bind (installTrans _ lh) fun _ =>
    bind (perform fun _ h => h) fun _ => writeHead _
  refine bind (bread _ _ _) fun buf => bind (perform fun _ h => h) fun _ =>
    bind (perform fun _ h => h) fun _ => bind (forM fun _ => perform fun _ h => h) fun _ => ?_
  exact brelse buf

theorem commitTrans : Stores limits true false (Legacy.commitTrans conf) := by
  refine bind (perform fun _ h => h) fun lh => bind (when ?_) fun _ => ⟨rfl, rfl⟩
  exact bind (writeHead conf) fun _ => bind (installTrans conf lh) fun _ =>
    bind (perform fun _ h => h) fun _ => writeHead conf

theorem logWrite (b : Fin limits.nbuf) : Stores limits true true (Legacy.logWrite conf b) := by
  refine bind (perform fun _ h => h) fun lh => bind (panicIf (by decide)) fun _ =>
    busy fun busy hbusy => ?_
  obtain rfl := hbusy rfl
  refine bind (ret _) fun _ => bind (perform fun _ h => h) fun _ => bind (perform fun _ h => h) fun _ =>
    bind (bread conf _ _) fun lbuf => bind (perform fun _ h => h) fun _ =>
      bind (setData _ _) fun _ => bind (bwrite conf lbuf) fun _ => bind (brelse lbuf) fun _ =>
        bind (when (perform fun _ h => h)) fun _ => perform fun _ h => h

end Stores

end Storage

/-! ### `fs-legacy.c` -/

section Functions

variable {before : Bool} (machine : Machine limits)

theorem inode_moves (i : Fin limits.ninode) : Moves before before (inode i) :=
  .perform fun _ h => h

theorem setDinode_moves (i : Fin limits.ninode) (change : Xv6.Fs.Dinode → Xv6.Fs.Dinode) :
    Moves before before (setDinode i change) :=
  .bind (inode_moves i) fun _ => .perform fun _ h => h

theorem bread_moves (dev blockno : Nat) : Moves before before (bread machine dev blockno) :=
  Stores.bread _ _ _

theorem brelse_moves (b : Fin limits.nbuf) : Moves before before (brelse b : Code limits Unit) :=
  Stores.brelse b

theorem data_moves (b : Fin limits.nbuf) : Moves before before (data b : Code limits Bytes) :=
  .bind (Stores.perform fun _ h => h) fun _ => .ret _

theorem modify_moves (b : Fin limits.nbuf) (change : Bytes → Bytes) :
    Moves before before (modify b change : Code limits Unit) :=
  .bind (data_moves b) fun _ => Stores.setData b _

theorem beginTrans_moves : Moves before true (beginTrans : Code limits Unit) := rfl

theorem commitTrans_moves : Moves true false (commitTrans machine) := Stores.commitTrans _

theorem logWrite_moves (b : Fin limits.nbuf) : Moves true true (logWrite machine b) :=
  .bind ⟨rfl, rfl⟩ fun _ => Stores.logWrite _ b

theorem readsb_moves (dev : Nat) : Moves before before (readsb machine dev) :=
  .bind (bread_moves machine dev 1) fun bp => .bind (data_moves bp) fun _ =>
    .bind (brelse_moves bp) fun _ => .ret _

theorem bzero_moves (dev bno : Nat) : Moves true true (bzero machine dev bno) :=
  .bind (bread_moves machine dev bno) fun bp => .bind (modify_moves bp _) fun _ =>
    .bind (logWrite_moves machine bp) fun _ => brelse_moves bp

theorem ballocFrom_moves (dev : Nat) (sb : Superblock) (starts : List Nat) :
    Moves true true (ballocFrom machine dev sb starts) := by
  induction starts with
  | nil => exact .panic (by decide)
  | cons b rest ih =>
      refine .bind (bread_moves machine _ _) fun bp => .bind (data_moves bp) fun bytes => ?_
      cases freeBit sb bytes b with
      | some bi =>
          exact .bind (modify_moves bp _) fun _ => .bind (logWrite_moves machine bp) fun _ =>
            .bind (brelse_moves bp) fun _ => .bind (bzero_moves machine _ _) fun _ => .ret _
      | none => exact .bind (brelse_moves bp) fun _ => ih

theorem balloc_moves (dev : Nat) : Moves true true (balloc machine dev) :=
  .bind (readsb_moves machine dev) fun sb => ballocFrom_moves machine dev sb _

theorem bfree_moves (dev b : Nat) : Moves true true (bfree machine dev b) :=
  .bind (readsb_moves machine dev) fun _ => .bind (bread_moves machine _ _) fun bp =>
    .bind (data_moves bp) fun _ => .bind (.panicIf (by decide)) fun _ =>
      .bind (modify_moves bp _) fun _ => .bind (logWrite_moves machine bp) fun _ => brelse_moves bp

theorem iget_moves (dev inum : Nat) : Moves before before (iget dev inum : Code limits _) :=
  .bind (.perform fun _ h => h) fun _ => .elim (.panic (by decide)) fun _ => .ret _

theorem iallocFrom_moves (dev type : Nat) (sb : Superblock) (inums : List Nat) :
    Moves true true (iallocFrom machine dev type sb inums) := by
  induction inums with
  | nil => exact .panic (by decide)
  | cons inum rest ih =>
      refine .bind (bread_moves machine _ _) fun bp => .bind (data_moves bp) fun _ => .ite ?_ ?_
      · exact .bind (modify_moves bp _) fun _ => .bind (logWrite_moves machine bp) fun _ =>
          .bind (brelse_moves bp) fun _ => iget_moves dev inum
      · exact .bind (brelse_moves bp) fun _ => ih

theorem ialloc_moves (dev type : Nat) : Moves true true (ialloc machine dev type) :=
  .bind (readsb_moves machine dev) fun sb => iallocFrom_moves machine dev type sb _

theorem iupdate_moves (i : Fin limits.ninode) : Moves true true (iupdate machine i) :=
  .bind (inode_moves i) fun _ => .bind (readsb_moves machine _) fun _ =>
    .bind (bread_moves machine _ _) fun bp => .bind (modify_moves bp _) fun _ =>
      .bind (logWrite_moves machine bp) fun _ => brelse_moves bp

theorem ilock_moves (i : Fin limits.ninode) : Moves before before (ilock machine i) := by
  refine .bind (inode_moves i) fun _ => .bind (.panicIf (by decide)) fun _ =>
    .bind (.perform fun _ h => h) fun _ => .bind (inode_moves i) fun _ => .when ?_
  exact .bind (readsb_moves machine _) fun _ => .bind (bread_moves machine _ _) fun bp =>
    .bind (data_moves bp) fun _ => .bind (setDinode_moves i _) fun _ =>
      .bind (brelse_moves bp) fun _ => .bind (.perform fun _ h => h) fun _ =>
        .panicIf (by decide)

theorem iunlock_moves (i : Fin limits.ninode) : Moves before before (iunlock i) :=
  .bind (inode_moves i) fun _ => .bind (.panicIf (by decide)) fun _ => .perform fun _ h => h

theorem itruncDirect_moves (i : Fin limits.ninode) (entries : List (Fin ndirect)) :
    Moves true true (itruncDirect machine i entries) := by
  induction entries with
  | nil => exact .ret _
  | cons k rest ih =>
      refine .bind (inode_moves i) fun _ => .bind (.when ?_) fun _ => ih
      exact .bind (bfree_moves machine _ _) fun _ => setDinode_moves i _

theorem itruncIndirect_moves (dev : Nat) (addrs : List Nat) :
    Moves true true (itruncIndirect machine dev addrs) := by
  induction addrs with
  | nil => exact .ret _
  | cons addr rest ih => exact .bind (.when (bfree_moves machine _ _)) fun _ => ih

theorem itrunc_moves (i : Fin limits.ninode) : Moves true true (itrunc machine i) := by
  refine .bind (itruncDirect_moves machine i _) fun _ => .bind (inode_moves i) fun _ =>
    .bind (.when ?_) fun _ => .bind (setDinode_moves i _) fun _ => iupdate_moves machine i
  exact .bind (bread_moves machine _ _) fun bp => .bind (data_moves bp) fun _ =>
    .bind (itruncIndirect_moves machine _ _) fun _ => .bind (brelse_moves bp) fun _ =>
      .bind (bfree_moves machine _ _) fun _ => setDinode_moves i _

theorem iput_moves (i : Fin limits.ninode) : Moves before before (iput machine i) := by
  refine .iputDrop fun found hfound => ?_
  cases found with
  | dropped => exact .ret _
  | busy => exact .panic (by decide)
  | last =>
      cases before with
      | false => exact absurd rfl (hfound rfl)
      | true =>
          exact .bind (itrunc_moves machine i) fun _ => .bind (setDinode_moves i _) fun _ =>
            .bind (iupdate_moves machine i) fun _ => .perform fun _ h => h

theorem iunlockput_moves (i : Fin limits.ninode) : Moves before before (iunlockput machine i) :=
  .bind (iunlock_moves i) fun _ => iput_moves machine i

theorem slot_moves (i : Fin limits.ninode) (k : Fin (ndirect + 1)) :
    Moves before before (bmap.slot machine i k) := by
  refine .addr fun addr haddr => ?_
  split
  next hzero =>
    cases before with
    | false => exact absurd hzero (haddr rfl)
    | true =>
        exact .bind (inode_moves i) fun _ => .bind (balloc_moves machine _) fun _ =>
          .bind (setDinode_moves i _) fun _ => .ret _
  next => exact .ret _

theorem bmap_moves (i : Fin limits.ninode) (bn : Nat) : Moves before before (bmap machine i bn) := by
  unfold bmap
  split
  · exact slot_moves machine i _
  · refine .ite (.bind (slot_moves machine i _) fun block => ?_) (.panic (by decide))
    refine .bind (inode_moves i) fun _ => .bind (bread_moves machine _ _) fun bp =>
      .entry fun addr haddr => ?_
    split
    next hzero =>
      cases before with
      | false => exact absurd hzero (haddr rfl)
      | true =>
          exact .bind (balloc_moves machine _) fun _ => .bind (modify_moves bp _) fun _ =>
            .bind (logWrite_moves machine bp) fun _ => .bind (brelse_moves bp) fun _ => .ret _
    next => exact .bind (brelse_moves bp) fun _ => .ret _

theorem readiFrom_moves (i : Fin limits.ninode) (count fuel off tot : Nat) (copied : List UInt8) :
    Moves before before (readiFrom machine i count fuel off tot copied) := by
  induction fuel generalizing off tot copied with
  | zero => exact .ret _
  | succ fuel ih =>
      refine .ite ?_ (.ret _)
      exact .bind (inode_moves i) fun _ => .bind (bmap_moves machine i _) fun _ =>
        .bind (bread_moves machine _ _) fun bp => .bind (data_moves bp) fun _ =>
          .bind (brelse_moves bp) fun _ => ih _ _ _

theorem outside_moves : Moves before before (outside : Code limits Nat) := .perform fun _ h => h

theorem consoleread_moves (i : Fin limits.ninode) (count : Nat) :
    Moves before before (consoleread machine i count) :=
  .bind (iunlock_moves i) fun _ => .bind outside_moves fun _ => .bind outside_moves fun _ =>
    .bind outside_moves fun _ => .bind (ilock_moves machine i) fun _ => .ite (.ret _) (.ret _)

theorem readi_moves (i : Fin limits.ninode) (off count : UInt32) :
    Moves before before (readi machine i off count) := by
  refine .bind (inode_moves i) fun ip => .ite (.ite ?_ (.ret _)) (.ite (.ret _) ?_)
  · exact consoleread_moves machine i _
  · exact .bind (readiFrom_moves machine i _ _ _ _ _) fun _ => .ret _

theorem writeiFrom_moves (i : Fin limits.ninode) (src : Nat → UInt8) (count fuel off tot : Nat) :
    Moves true true (writeiFrom machine i src count fuel off tot) := by
  induction fuel generalizing off tot with
  | zero => exact .ret _
  | succ fuel ih =>
      refine .ite ?_ (.ret _)
      exact .bind (inode_moves i) fun _ => .bind (bmap_moves machine i _) fun _ =>
        .bind (bread_moves machine _ _) fun bp => .bind (modify_moves bp _) fun _ =>
          .bind (logWrite_moves machine bp) fun _ => .bind (brelse_moves bp) fun _ => ih _ _

theorem writei_moves (i : Fin limits.ninode) (src : Nat → UInt8) (off count : UInt32) :
    Moves true true (writei machine i src off count) := by
  refine .bind (inode_moves i) fun ip => .ite (.ite ?_ (.ret _)) (.ite (.ret _) (.ite (.ret _) ?_))
  · exact .bind (iunlock_moves i) fun _ => .bind (ilock_moves machine i) fun _ => .ret _
  · refine .bind (writeiFrom_moves machine i _ _ _ _ _) fun _ => .bind (inode_moves i) fun _ =>
      .bind (.when ?_) fun _ => .ret _
    exact .bind (setDinode_moves i _) fun _ => iupdate_moves machine i

theorem readDirent_moves (dp : Fin limits.ninode) (off : Nat) {message : String}
    (hmessage : message ≠ "write outside of trans") :
    Moves before before (readDirent machine dp off message) :=
  .bind (readi_moves machine dp _ _) fun _ => .bind (.panicIf hmessage) fun _ => .ret _

theorem dirlookupFrom_moves (dp : Fin limits.ninode) (name : Name) (offs : List Nat) :
    Moves before before (dirlookupFrom machine dp name offs) := by
  induction offs with
  | nil => exact .ret _
  | cons off rest ih =>
      exact .bind (readDirent_moves machine dp off (by decide)) fun _ => .ite (.ret _) ih

theorem dirlookup_moves (dp : Fin limits.ninode) (name : Name) :
    Moves before before (dirlookup machine dp name) := by
  refine .bind (inode_moves dp) fun ip => .bind (.panicIf (by decide)) fun _ =>
    .bind (dirlookupFrom_moves machine dp name _) fun found => ?_
  cases found with
  | none => exact .ret _
  | some found => exact .bind (iget_moves _ _) fun _ => .ret _

theorem emptyFrom_moves (dp : Fin limits.ninode) (size : Nat) (offs : List Nat) :
    Moves before before (emptyFrom machine dp size offs) := by
  induction offs with
  | nil => exact .ret _
  | cons off rest ih =>
      exact .bind (readDirent_moves machine dp off (by decide)) fun _ => .ite (.ret _) ih

theorem dirlink_moves (dp : Fin limits.ninode) (name : Name) (inum : Nat) :
    Moves true true (dirlink machine dp name inum) := by
  refine .bind (dirlookup_moves machine dp name) fun found => ?_
  cases found with
  | some found => exact .bind (iput_moves machine _) fun _ => .ret _
  | none =>
      exact .bind (inode_moves dp) fun ip => .bind (emptyFrom_moves machine dp _ _) fun _ =>
        .bind (writei_moves machine dp _ _ _) fun _ => .bind (.panicIf (by decide)) fun _ => .ret _

theorem stop_moves (parent : Bool) (ip : Fin limits.ninode) (name : Name) :
    Moves before before (namexFrom.stop machine parent ip name) :=
  .ite (.bind (iput_moves machine ip) fun _ => .ret _) (.ret _)

theorem namexFrom_moves (parent : Bool) (fuel : Nat) (ip : Fin limits.ninode) (path : Path)
    (name : Name) : Moves before before (namexFrom machine parent fuel ip path name) := by
  induction fuel generalizing ip path name with
  | zero => exact stop_moves machine parent ip name
  | succ fuel ih =>
      unfold namexFrom
      cases skipelem path with
      | none => exact stop_moves machine parent ip name
      | some elem =>
          refine .bind (ilock_moves machine ip) fun _ => .bind (inode_moves ip) fun entry =>
            .ite (.bind (iunlockput_moves machine ip) fun _ => .ret _)
              (.ite (.bind (iunlock_moves ip) fun _ => .ret _) ?_)
          refine .bind (dirlookup_moves machine ip _) fun next =>
            .bind (iunlockput_moves machine ip) fun _ => ?_
          cases next with
          | none => exact .ret _
          | some next => exact ih _ _ _

theorem self_moves : Moves before before (self : Code limits _) := .perform fun _ h => h

theorem proc_moves (p : Fin limits.nproc) : Moves before before (proc p : Code limits _) :=
  .perform fun _ h => h

theorem namex_moves (parent : Bool) (path : Path) :
    Moves before before (namex machine parent path) := by
  refine .bind (.ite (iget_moves _ _) ?_) fun ip => namexFrom_moves machine parent _ ip path []
  refine .bind self_moves fun _ => .bind (proc_moves _) fun _ => .elim (.panic (by decide)) ?_
  exact fun cwd => .bind (.perform fun _ h => h) fun _ => .ret _

theorem namei_moves (path : Path) : Moves before before (namei machine path) :=
  .bind (namex_moves machine false path) fun _ => .ret _

theorem nameiparent_moves (path : Path) : Moves before before (nameiparent machine path) :=
  namex_moves machine true path

end Functions

end Xv6.Legacy.Fs
