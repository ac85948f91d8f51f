import Xv6.Virtio.Rules

/-!
# What holds of the virtio disk

Every descriptor is free or in the chain of one call. A call that was sent has its first descriptor in `avail`, in
the device or in `used`, until the buffer is given back. `Stands` is about one call, at each of its stages, and
`Frame` is what the steps of all others leave alone.
-/

namespace Xv6.Virtio

section Invariant

variable {ι β D : Type}

structure Formatted (disk : Disk β) (call : Request.Call β D) (i j k : Nat) : Prop where
  first : disk.desc i = ⟨.ops i, 16, descFNext, j⟩
  second : disk.desc j =
    ⟨.data call.b, bsize, (if call.write then 0 else descFWrite) ||| descFNext, k⟩
  third : disk.desc k = ⟨.status i, 1, descFWrite, 0⟩
  ops : disk.ops i = ⟨if call.write then blkTOut else blkTIn, 0, call.sector⟩
  info : (disk.info i).b = some call.b

def Chained (disk : Disk β) : List Nat → Prop
  | [] => True
  | [i] => (disk.desc i).flags &&& descFNext = 0
  | i :: j :: rest =>
      (disk.desc i).flags &&& descFNext ≠ 0 ∧ (disk.desc i).next = j ∧ Chained disk (j :: rest)

def request (call : Request.Call β D) (i : Nat) : Request β :=
  ⟨i, call.write, call.sector, call.b, i, call.moved.isSome⟩

def State.tokens (state : State ι β D) : List Nat :=
  state.disk.avail.contents ++ state.busy.map Request.head ++ state.disk.used.contents

structure Called (state : State ι β D) (who : ι) (ghost : Ghost β) (call : Request.Call β D) : Prop where
  going : state.call who = some call
  args : ghost.call = some (call.b, call.write)
  owner : state.owner call.b = some who
  sector : (state.buf call.b).blockno * (bsize / 512) = call.sector
  before : call.write = true → (state.buf call.b).data = call.before
  moved : ∀ data, call.moved = some data → (state.buf call.b).data = data

def Underway (state : State ι β D) (call : Request.Call β D) (i : Nat) : Prop :=
  call.moved = none ∧ i ∈ state.disk.avail.contents ∨ request call i ∈ state.busy ∨
    call.moved ≠ none ∧ (state.disk.info i).status = 0 ∧ i ∈ state.disk.used.contents

def Sent (state : State ι β D) (call : Request.Call β D) (i : Nat) : Prop :=
  (state.buf call.b).disk = true ∧ Underway state call i ∨
    (state.buf call.b).disk = false ∧ call.moved ≠ none ∧ i ∉ state.tokens

/-- How a process stands with the disk. -/
def Stands (state : State ι β D) (who : ι) (ghost : Ghost β) : Prop :=
  match ghost.stage with
  | .idle => ghost.own = [] ∧ ghost.call = none ∧ state.call who = none
  | .called => ∃ call, Called state who ghost call ∧ call.moved = none
  | .formatted => ∃ call i j k, Called state who ghost call ∧ call.moved = none ∧
      ghost.own = [i, j, k] ∧ Formatted state.disk call i j k ∧ (state.buf call.b).disk = true
  | .staged => ∃ call i j k, Called state who ghost call ∧ call.moved = none ∧
      ghost.own = [i, j, k] ∧ Formatted state.disk call i j k ∧ (state.buf call.b).disk = true ∧
        state.disk.avail.data (CircularBuffer.slot state.disk.avail.nwrite) = i
  | .sent => ∃ call i j k, Called state who ghost call ∧ ghost.own = [i, j, k] ∧
      Formatted state.disk call i j k ∧ Sent state call i
  | .answered => ∃ call, Called state who ghost call ∧ call.moved ≠ none ∧ Chained state.disk ghost.own

structure Outside (ghost : Ghost β) : Prop where
  stage : ghost.stage = .idle ∨ ghost.stage = .called ∨ ghost.stage = .sent
  spare : ghost.spare = none
  onDisk : ghost.onDisk = false
  unseen : ghost.unseen = false

structure Chains (state : State ι β D) (ghosts : ι → Ghost β) : Prop where
  chain : ∀ who, state.chain who = (ghosts who).own
  nodup : ∀ who, (ghosts who).own.Nodup
  lt : ∀ who, ∀ i ∈ (ghosts who).own, i < num
  apart : ∀ {who other i}, i ∈ (ghosts who).own → i ∈ (ghosts other).own → who = other
  free : ∀ i < num, state.disk.free i = true ↔ ∀ who, i ∉ (ghosts who).own

structure Talks (state : State ι β D) (ghosts : ι → Ghost β) : Prop where
  stands : ∀ who, Stands state who (ghosts who)
  nodup : state.tokens.Nodup
  sent : ∀ i ∈ state.tokens, ∃ who, (ghosts who).stage = .sent ∧ (ghosts who).own.head? = some i

def Sleeps (state : State ι β D) (ghost : Ghost β) : Chan β → Prop
  | .free => ghost.stage = .called ∧
      ∃ spare : List Nat, spare.length < 3 ∧ ∀ i < num, state.disk.free i = true → i ∈ spare
  | .buf b => ghost.stage = .sent ∧ (∃ write, ghost.call = some (b, write)) ∧ (state.buf b).disk = true

structure Knows (state : State ι β D) (ghost : Ghost β) : Prop where
  spare : ∀ spare, ghost.spare = some spare → ∀ i < num, state.disk.free i = true → i ∈ spare
  onDisk : ghost.onDisk = true → ∀ b write, ghost.call = some (b, write) → (state.buf b).disk = true
  unseen : ghost.unseen = true → state.disk.used.contents ≠ []

structure Locked (state : State ι β D) (ghosts : ι → Ghost β) : Prop where
  lock : ∀ who, (ghosts who).holds = true ↔ state.vdiskLock = some who
  outside : ∀ who, (ghosts who).holds = false → Outside (ghosts who)
  sleeps : ∀ who chan, state.asleep who = some chan → Sleeps state (ghosts who) chan
  knows : ∀ who, Knows state (ghosts who)

def Replays : (Nat → D) → List (Entry ι D) → (Nat → D) → Prop
  | before, [], after => before = after
  | before, entry :: rest, after =>
      if entry.write then Replays (Function.update before entry.sector entry.data) rest after
      else before entry.sector = entry.data ∧ Replays before rest after

def State.current (state : State ι β D) (who : ι) : List (Entry ι D) :=
  match state.call who with
  | none => []
  | some call => call.moved.toList.map fun data => ⟨who, call.write, call.sector, data⟩

/-- The device has moved what calls that have ended were to move, once, and what it has moved for those that go on. -/
structure History [DecidableEq ι] (start : Nat → D) (state : State ι β D) : Prop where
  once : ∀ who, state.log.filter (fun entry => entry.who = who) =
    state.returned.filter (fun entry => entry.who = who) ++ state.current who
  replays : Replays start state.log state.platter

structure Inv [DecidableEq ι] (start : Nat → D) (state : State ι β D) (ghosts : ι → Ghost β) : Prop where
  calm : state.panicked = none
  sense : state.broken = false
  chains : Chains state ghosts
  talks : Talks state ghosts
  locked : Locked state ghosts
  history : History start state

/-! ### Frames -/

structure Frame (state state' : State ι β D) (who : ι) (ghost : Ghost β) : Prop where
  call : state'.call who = state.call who
  owner : ∀ b, state.owner b = some who → state'.owner b = some who
  buf : ∀ b, state.owner b = some who → state'.buf b = state.buf b
  desc : ∀ i ∈ ghost.own, state'.disk.desc i = state.disk.desc i
  ops : ∀ i ∈ ghost.own, state'.disk.ops i = state.disk.ops i
  info : ∀ i ∈ ghost.own, state'.disk.info i = state.disk.info i
  slot : ghost.stage = .staged → state'.disk.avail.data (CircularBuffer.slot state'.disk.avail.nwrite) =
    state.disk.avail.data (CircularBuffer.slot state.disk.avail.nwrite)
  underway : ∀ call : Request.Call β D, ∀ i ∈ ghost.own, Underway state call i → Underway state' call i
  tokens : ∀ i ∈ ghost.own, i ∈ state'.tokens → i ∈ state.tokens

variable {state state' : State ι β D} {ghosts : ι → Ghost β} {who : ι} {ghost ghost' : Ghost β}
  {call : Request.Call β D}

/-! ### What the device has moved for a call that goes on -/

theorem State.current_of_none (hcall : state.call who = none) : state.current who = [] := by
  simp only [State.current, hcall]

theorem State.current_of_waiting (hcall : state.call who = some call) (hmoved : call.moved = none) :
    state.current who = [] := by
  simp only [State.current, hcall, hmoved, Option.toList_none, List.map_nil]

theorem State.current_of_moved {data : D} (hcall : state.call who = some call)
    (hmoved : call.moved = some data) : state.current who = [⟨who, call.write, call.sector, data⟩] := by
  simp only [State.current, hcall, hmoved, Option.toList_some, List.map_cons, List.map_nil]

theorem State.current_congr (hcall : state'.call who = state.call who) : state'.current who = state.current who := by
  simp only [State.current, hcall]

theorem Underway.congr {i : Nat} (h : Underway state call i) (havail : state'.disk.avail = state.disk.avail)
    (hbusy : state'.busy = state.busy) (hused : state'.disk.used = state.disk.used)
    (hinfo : (state'.disk.info i).status = (state.disk.info i).status) : Underway state' call i := by
  unfold Underway
  rw [havail, hbusy, hused, hinfo]
  exact h

theorem tokens_congr (havail : state'.disk.avail = state.disk.avail) (hbusy : state'.busy = state.busy)
    (hused : state'.disk.used = state.disk.used) : state'.tokens = state.tokens := by
  rw [State.tokens, havail, hbusy, hused, State.tokens]

theorem Frame.of_quiet (hcall : state'.call who = state.call who)
    (howner : ∀ b, state.owner b = some who → state'.owner b = some who)
    (hbuf : ∀ b, state.owner b = some who → state'.buf b = state.buf b)
    (hdesc : ∀ i ∈ ghost.own, state'.disk.desc i = state.disk.desc i)
    (hops : ∀ i ∈ ghost.own, state'.disk.ops i = state.disk.ops i)
    (hinfo : ∀ i ∈ ghost.own, state'.disk.info i = state.disk.info i)
    (havail : state'.disk.avail = state.disk.avail) (hbusy : state'.busy = state.busy)
    (hused : state'.disk.used = state.disk.used) : Frame state state' who ghost where
  call := hcall
  owner := howner
  buf := hbuf
  desc := hdesc
  ops := hops
  info := hinfo
  slot _ := by rw [havail]
  underway _ i hi h := h.congr havail hbusy hused (by rw [hinfo i hi])
  tokens _ _ hmem := tokens_congr havail hbusy hused ▸ hmem

theorem Frame.of_eq (hcall : state'.call = state.call) (howner : state'.owner = state.owner)
    (hbuf : state'.buf = state.buf) (hdesc : state'.disk.desc = state.disk.desc)
    (hops : state'.disk.ops = state.disk.ops) (hinfo : state'.disk.info = state.disk.info)
    (havail : state'.disk.avail = state.disk.avail) (hbusy : state'.busy = state.busy)
    (hused : state'.disk.used = state.disk.used) : Frame state state' who ghost :=
  .of_quiet (congrFun hcall who) (fun _ hb => howner ▸ hb) (fun b _ => congrFun hbuf b)
    (fun i _ => congrFun hdesc i) (fun i _ => congrFun hops i) (fun i _ => congrFun hinfo i) havail hbusy hused

theorem Called.frame (h : Called state who ghost call) (hframe : Frame state state' who ghost)
    (hargs : ghost'.call = ghost.call) : Called state' who ghost' call where
  going := hframe.call.trans h.going
  args := hargs.trans h.args
  owner := hframe.owner _ h.owner
  sector := by
    rw [hframe.buf _ h.owner]
    exact h.sector
  before := by
    rw [hframe.buf _ h.owner]
    exact h.before
  moved := by
    rw [hframe.buf _ h.owner]
    exact h.moved

theorem Formatted.frame {disk disk' : Disk β} {i j k : Nat} (h : Formatted disk call i j k)
    (hdesc : ∀ n ∈ [i, j, k], disk'.desc n = disk.desc n) (hops : disk'.ops i = disk.ops i)
    (hinfo : (disk'.info i).b = (disk.info i).b) : Formatted disk' call i j k where
  first := (hdesc i (by simp)).trans h.first
  second := (hdesc j (by simp)).trans h.second
  third := (hdesc k (by simp)).trans h.third
  ops := hops.trans h.ops
  info := hinfo.trans h.info

theorem Chained.frame {disk disk' : Disk β} {own : List Nat} (h : Chained disk own)
    (hdesc : ∀ n ∈ own, disk'.desc n = disk.desc n) : Chained disk' own := by
  induction own with
  | nil => trivial
  | cons i rest ih =>
      have hi := hdesc i List.mem_cons_self
      have hrest : ∀ n ∈ rest, disk'.desc n = disk.desc n := fun n hn => hdesc n (List.mem_cons_of_mem _ hn)
      cases rest with
      | nil =>
          unfold Chained at h ⊢
          rwa [hi]
      | cons j rest =>
          unfold Chained at h ⊢
          rw [hi]
          exact ⟨h.1, h.2.1, ih h.2.2 hrest⟩

theorem Chained.tail {disk : Disk β} {i : Nat} {rest : List Nat} (h : Chained disk (i :: rest)) : Chained disk rest := by
  cases rest with
  | nil => trivial
  | cons j rest => exact h.2.2

theorem Formatted.chained {disk : Disk β} {i j k : Nat} (h : Formatted disk call i j k) : Chained disk [i, j, k] := by
  have hfirst : descFNext &&& descFNext ≠ 0 := by decide
  have hsecond : ((if call.write then 0 else descFWrite) ||| descFNext) &&& descFNext ≠ 0 := by
    cases call.write <;> decide
  have hthird : descFWrite &&& descFNext = 0 := by decide
  unfold Chained Chained Chained
  rw [h.first, h.second, h.third]
  exact ⟨hfirst, rfl, hsecond, rfl, hthird⟩

theorem Sent.frame {i : Nat} (h : Sent state call i) (hframe : Frame state state' who ghost) (hi : i ∈ ghost.own)
    (howner : state.owner call.b = some who) : Sent state' call i := by
  have hbuf := hframe.buf _ howner
  rcases h with ⟨hdisk, hway⟩ | ⟨hdisk, hmoved, hgone⟩
  · exact Or.inl ⟨(congrArg Buf.disk hbuf).trans hdisk, hframe.underway call i hi hway⟩
  · exact Or.inr ⟨(congrArg Buf.disk hbuf).trans hdisk, hmoved, fun hmem => hgone (hframe.tokens i hi hmem)⟩

theorem Stands.frame (h : Stands state who ghost) (hframe : Frame state state' who ghost)
    (hown : ghost'.own = ghost.own) (hstage : ghost'.stage = ghost.stage) (hargs : ghost'.call = ghost.call) :
    Stands state' who ghost' := by
  have hformatted : ∀ {call : Request.Call β D} {i j k : Nat}, ghost.own = [i, j, k] →
      Formatted state.disk call i j k → Formatted state'.disk call i j k := by
    intro call i j k hijk hform
    have hi : i ∈ ghost.own := by simp [hijk]
    exact hform.frame (fun n hn => hframe.desc n (hijk ▸ hn)) (hframe.ops i hi) (congrArg Info.b (hframe.info i hi))
  unfold Stands at h ⊢
  rw [hstage]
  cases hcase : ghost.stage with
  | idle =>
      simp only [hcase] at h ⊢
      exact ⟨hown.trans h.1, hargs.trans h.2.1, hframe.call.trans h.2.2⟩
  | called =>
      simp only [hcase] at h ⊢
      obtain ⟨call, hcalled, hmoved⟩ := h
      exact ⟨call, hcalled.frame hframe hargs, hmoved⟩
  | formatted =>
      simp only [hcase] at h ⊢
      obtain ⟨call, i, j, k, hcalled, hmoved, hijk, hform, hdisk⟩ := h
      refine ⟨call, i, j, k, hcalled.frame hframe hargs, hmoved, hown.trans hijk, hformatted hijk hform, ?_⟩
      rw [hframe.buf _ hcalled.owner]
      exact hdisk
  | staged =>
      simp only [hcase] at h ⊢
      obtain ⟨call, i, j, k, hcalled, hmoved, hijk, hform, hdisk, hslot⟩ := h
      refine ⟨call, i, j, k, hcalled.frame hframe hargs, hmoved, hown.trans hijk, hformatted hijk hform, ?_,
        (hframe.slot hcase).trans hslot⟩
      rw [hframe.buf _ hcalled.owner]
      exact hdisk
  | sent =>
      simp only [hcase] at h ⊢
      obtain ⟨call, i, j, k, hcalled, hijk, hform, hsent⟩ := h
      exact ⟨call, i, j, k, hcalled.frame hframe hargs, hown.trans hijk, hformatted hijk hform,
        hsent.frame hframe (by simp [hijk]) hcalled.owner⟩
  | answered =>
      simp only [hcase] at h ⊢
      obtain ⟨call, hcalled, hmoved, hchain⟩ := h
      rw [hown]
      exact ⟨call, hcalled.frame hframe hargs, hmoved, hchain.frame hframe.desc⟩

variable [DecidableEq ι]

theorem field_update {γ : Type} {field : Ghost β → γ} (h : field ghost = field (ghosts who)) (other : ι) :
    field (Function.update ghosts who ghost other) = field (ghosts other) := by
  by_cases hother : other = who
  · rw [hother, Function.update_self, h]
  · rw [Function.update_of_ne hother]

theorem Chains.same (h : Chains state ghosts) (hchain : state'.chain = state.chain)
    (hfree : state'.disk.free = state.disk.free) (hown : ghost.own = (ghosts who).own) :
    Chains state' (Function.update ghosts who ghost) := by
  have howns := @field_update _ _ ghosts who ghost _ _ Ghost.own hown
  refine ⟨fun other => ?_, fun other => ?_, fun other => ?_, fun {one other i} hone hother => ?_, fun i hi => ?_⟩
  · rw [hchain, howns]
    exact h.chain other
  · rw [howns]
    exact h.nodup other
  · rw [howns]
    exact h.lt other
  · rw [howns] at hone hother
    exact h.apart hone hother
  · rw [hfree, h.free i hi]
    exact forall_congr' fun other => by rw [howns]

theorem Talks.update (h : Talks state ghosts)
    (hothers : ∀ other, other ≠ who → Frame state state' other (ghosts other))
    (hstands : Stands state' who ghost) (hnodup : state'.tokens.Nodup)
    (hsent : ∀ i ∈ state'.tokens, (∃ other, other ≠ who ∧ (ghosts other).stage = .sent ∧
      (ghosts other).own.head? = some i) ∨ ghost.stage = .sent ∧ ghost.own.head? = some i) :
    Talks state' (Function.update ghosts who ghost) := by
  refine ⟨fun other => ?_, hnodup, fun i hi => ?_⟩
  · by_cases hother : other = who
    · rw [hother, Function.update_self]
      exact hstands
    · rw [Function.update_of_ne hother]
      exact (h.stands other).frame (hothers other hother) rfl rfl rfl
  · rcases hsent i hi with ⟨other, hother, hfound⟩ | hfound
    · refine ⟨other, ?_⟩
      rw [Function.update_of_ne hother]
      exact hfound
    · refine ⟨who, ?_⟩
      rw [Function.update_self]
      exact hfound

theorem Talks.quiet (h : Talks state ghosts)
    (hothers : ∀ other, other ≠ who → Frame state state' other (ghosts other))
    (hstands : Stands state' who ghost) (htokens : state'.tokens = state.tokens)
    (hwho : (ghosts who).stage = .sent → ∀ i, (ghosts who).own.head? = some i → i ∈ state.tokens →
      ghost.stage = .sent ∧ ghost.own.head? = some i) :
    Talks state' (Function.update ghosts who ghost) := by
  refine h.update hothers hstands (htokens ▸ h.nodup) fun i hi => ?_
  rw [htokens] at hi
  obtain ⟨other, hstage, hhead⟩ := h.sent i hi
  by_cases hother : other = who
  · subst hother
    exact Or.inr (hwho hstage i hhead hi)
  · exact Or.inl ⟨other, hother, hstage, hhead⟩

theorem Talks.same (h : Talks state ghosts) (hframe : ∀ other, Frame state state' other (ghosts other))
    (htokens : state'.tokens = state.tokens) (hown : ghost.own = (ghosts who).own)
    (hstage : ghost.stage = (ghosts who).stage) (hargs : ghost.call = (ghosts who).call) :
    Talks state' (Function.update ghosts who ghost) := by
  refine h.quiet (fun other _ => hframe other) ((h.stands who).frame (hframe who) hown hstage hargs) htokens
    fun hsent i hhead _ => ?_
  rw [hstage, hown]
  exact ⟨hsent, hhead⟩

theorem Talks.device (h : Talks state ghosts)
    (hothers : ∀ other, other ≠ who → Frame state state' other (ghosts other))
    (hstands : Stands state' who (ghosts who)) (hnodup : state'.tokens.Nodup)
    (hsub : ∀ i ∈ state'.tokens, i ∈ state.tokens) : Talks state' ghosts := by
  have hupdate := @Talks.update _ _ _ state state' ghosts who (ghosts who) _ h hothers hstands hnodup fun i hi => by
    obtain ⟨other, hfound⟩ := h.sent i (hsub i hi)
    by_cases hother : other = who
    · exact Or.inr (hother ▸ hfound)
    · exact Or.inl ⟨other, hother, hfound⟩
  rwa [Function.update_eq_self] at hupdate

omit [DecidableEq ι] in
/-- Who has no lock knows nothing. -/
theorem Outside.knows (h : Outside ghost) : Knows state ghost where
  spare spare hspare := by
    rw [h.spare] at hspare
    cases hspare
  onDisk honDisk := by
    rw [h.onDisk] at honDisk
    cases honDisk
  unseen hunseen := by
    rw [h.unseen] at hunseen
    cases hunseen

omit [DecidableEq ι] in
theorem Sleeps.mono {chan : Chan β} (h : Sleeps state ghost chan)
    (hfree : chan = .free → ∀ i < num, state'.disk.free i = true → state.disk.free i = true)
    (hdisk : ∀ b, chan = .buf b → (state.buf b).disk = true → (state'.buf b).disk = true) :
    Sleeps state' ghost chan := by
  cases chan with
  | free =>
      obtain ⟨hstage, spare, hlength, hspare⟩ := h
      exact ⟨hstage, spare, hlength, fun i hi hyes => hspare i hi (hfree rfl i hi hyes)⟩
  | buf b => exact ⟨h.1, h.2.1, hdisk b rfl h.2.2⟩

omit [DecidableEq ι] in
theorem Locked.others (h : Locked state ghosts) (hholds : (ghosts who).holds = true) {other : ι} (hother : other ≠ who) :
    Outside (ghosts other) := by
  refine h.outside other (Bool.eq_false_iff.mpr fun hyes => hother ?_)
  exact Option.some.inj (((h.lock other).mp hyes).symm.trans ((h.lock who).mp hholds))

omit [DecidableEq ι] in
theorem Locked.unstaged (h : Locked state ghosts) (hholds : (ghosts who).holds = true) {other : ι}
    (hother : other ≠ who) : (ghosts other).stage ≠ .staged := by
  intro hstaged
  have hstage := (h.others hholds hother).stage
  rw [hstaged] at hstage
  simp at hstage

theorem Locked.keep (h : Locked state ghosts) (hholds : (ghosts who).holds = true) (hghost : ghost.holds = true)
    (hlock : state'.vdiskLock = state.vdiskLock) (hawake : state.asleep who = none)
    (hasleep : ∀ other chan, state'.asleep other = some chan → state.asleep other = some chan ∧
      (Sleeps state (ghosts other) chan → Sleeps state' (ghosts other) chan))
    (hknows : Knows state' ghost) : Locked state' (Function.update ghosts who ghost) := by
  refine ⟨fun other => ?_, fun other hout => ?_, fun other chan hchan => ?_, fun other => ?_⟩
  · rw [@field_update _ _ ghosts who ghost _ _ Ghost.holds (hghost.trans hholds.symm), hlock]
    exact h.lock other
  · by_cases hother : other = who
    · rw [hother, Function.update_self, hghost] at hout
      cases hout
    · rw [Function.update_of_ne hother] at hout ⊢
      exact h.outside other hout
  · obtain ⟨hbefore, hsleeps⟩ := hasleep other chan hchan
    have hother : other ≠ who := by
      rintro rfl
      rw [hawake] at hbefore
      cases hbefore
    rw [Function.update_of_ne hother]
    exact hsleeps (h.sleeps other chan hbefore)
  · by_cases hother : other = who
    · rw [hother, Function.update_self]
      exact hknows
    · rw [Function.update_of_ne hother]
      exact (h.others hholds hother).knows

theorem Locked.acquire (h : Locked state ghosts) (hfree : state.vdiskLock = none) :
    Locked { state with vdiskLock := some who } (Function.update ghosts who { ghosts who with holds := true }) := by
  have hnone : ∀ other, (ghosts other).holds = false := by
    intro other
    rw [Bool.eq_false_iff]
    intro hyes
    cases hfree.symm.trans ((h.lock other).mp hyes)
  refine ⟨fun other => ?_, fun other hout => ?_, fun other chan hchan => ?_, fun other => ?_⟩
  · by_cases hother : other = who
    · rw [hother, Function.update_self]
      exact iff_of_true rfl rfl
    · rw [Function.update_of_ne hother]
      refine iff_of_false (by rw [hnone]; exact Bool.false_ne_true) fun heq => hother (Option.some.inj heq).symm
  · by_cases hother : other = who
    · rw [hother, Function.update_self] at hout
      cases hout
    · rw [Function.update_of_ne hother] at hout ⊢
      exact h.outside other hout
  · have hsleeps := h.sleeps other chan hchan
    by_cases hother : other = who
    · rw [hother, Function.update_self]
      rw [hother] at hsleeps
      cases chan with
      | free | buf b => exact hsleeps
    · rw [Function.update_of_ne hother]
      exact hsleeps.mono (fun _ _ _ => id) fun _ _ => id
  · have hknows := (h.outside other (hnone other))
    by_cases hother : other = who
    · rw [hother, Function.update_self]
      rw [hother] at hknows
      exact ⟨hknows.knows.spare, hknows.knows.onDisk, hknows.knows.unseen⟩
    · rw [Function.update_of_ne hother]
      exact hknows.knows

theorem Locked.leave {asleep : ι → Option (Chan β)} (h : Locked state ghosts) (hholds : (ghosts who).holds = true)
    (hstage : (ghosts who).stage = .idle ∨ (ghosts who).stage = .called ∨ (ghosts who).stage = .sent)
    (hasleep : ∀ other chan, asleep other = some chan → Sleeps state (ghosts other) chan) :
    Locked { state with vdiskLock := none, asleep } (Function.update ghosts who (ghosts who).leave) := by
  have hout : Outside (ghosts who).leave := ⟨hstage, rfl, rfl, rfl⟩
  have houts : ∀ other, Outside (Function.update ghosts who (ghosts who).leave other) := by
    intro other
    by_cases hother : other = who
    · rw [hother, Function.update_self]
      exact hout
    · rw [Function.update_of_ne hother]
      exact h.others hholds hother
  refine ⟨fun other => ?_, fun other _ => houts other, fun other chan hchan => ?_, fun other => (houts other).knows⟩
  · refine iff_of_false (fun hyes => ?_) (Option.some_ne_none other).symm
    by_cases hother : other = who
    · rw [hother, Function.update_self] at hyes
      cases hyes
    · rw [Function.update_of_ne hother] at hyes
      exact hother (Option.some.inj (((h.lock other).mp hyes).symm.trans ((h.lock who).mp hholds)))
  · have hsleeps := hasleep other chan hchan
    by_cases hother : other = who
    · rw [hother, Function.update_self]
      rw [hother] at hsleeps
      cases chan with
      | free | buf b => exact hsleeps
    · rw [Function.update_of_ne hother]
      exact hsleeps.mono (fun _ _ _ => id) fun _ _ => id

omit [DecidableEq ι] in
/-- The device steps, or somebody uses a buffer. -/
theorem Locked.device (h : Locked state ghosts) (hlock : state'.vdiskLock = state.vdiskLock)
    (hasleep : ∀ other chan, state'.asleep other = some chan → state.asleep other = some chan)
    (hfree : state'.disk.free = state.disk.free) (hdisk : ∀ b, (state'.buf b).disk = (state.buf b).disk)
    (hused : state.disk.used.contents ≠ [] → state'.disk.used.contents ≠ []) : Locked state' ghosts where
  lock other := by
    rw [hlock]
    exact h.lock other
  outside := h.outside
  sleeps other chan hchan :=
    (h.sleeps other chan (hasleep other chan hchan)).mono (fun _ _ _ hyes => hfree ▸ hyes)
      fun b _ hyes => (hdisk b).trans hyes
  knows other :=
    { spare := fun spare hspare i hi hyes => (h.knows other).spare spare hspare i hi (hfree ▸ hyes)
      onDisk := fun honDisk b write hcall => (hdisk b).trans ((h.knows other).onDisk honDisk b write hcall)
      unseen := fun hunseen => hused ((h.knows other).unseen hunseen) }

theorem History.same {start : Nat → D} (h : History start state) (hlog : state'.log = state.log)
    (hreturned : state'.returned = state.returned) (hcall : state'.call = state.call)
    (hplatter : state'.platter = state.platter) : History start state' where
  once who := by
    rw [hlog, hreturned, State.current_congr (congrFun hcall who)]
    exact h.once who
  replays := by
    rw [hlog, hplatter]
    exact h.replays

omit [DecidableEq ι] in
theorem replays_cons {before after : Nat → D} {entry : Entry ι D} {rest : List (Entry ι D)} :
    Replays before (entry :: rest) after ↔
      if entry.write then Replays (Function.update before entry.sector entry.data) rest after
      else before entry.sector = entry.data ∧ Replays before rest after := Iff.rfl

omit [DecidableEq ι] in
/-- Another entry. -/
theorem Replays.append {before after last : Nat → D} {log : List (Entry ι D)} {entry : Entry ι D}
    (h : Replays before log after)
    (hlast : if entry.write then last = Function.update after entry.sector entry.data
      else after entry.sector = entry.data ∧ last = after) : Replays before (log ++ [entry]) last := by
  induction log generalizing before with
  | nil =>
      obtain rfl : before = after := h
      rw [List.nil_append, replays_cons]
      split at hlast
      · next hwrite =>
          rw [if_pos hwrite]
          exact hlast.symm
      · next hwrite =>
          rw [if_neg hwrite]
          exact ⟨hlast.1, hlast.2.symm⟩
  | cons first rest ih =>
      rw [List.cons_append, replays_cons]
      rw [replays_cons] at h
      split at h
      · next hwrite =>
          rw [if_pos hwrite]
          exact ih h
      · next hwrite =>
          rw [if_neg hwrite]
          exact ⟨h.1, ih h.2⟩

end Invariant

end Xv6.Virtio
