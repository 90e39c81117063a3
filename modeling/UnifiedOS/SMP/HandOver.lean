import UnifiedOS.SMP.ProcessorBoot

/-!
# The hand-over to the application processors

While `InitializeCPU` writes the mailbox no processor is between the trampoline
and the end of its set-up, and between the STARTUP interrupt and `doneInit` at
most the one that is being booted is.  So the mailbox is stable for whoever
reads it, and `doneInit` is only ever set by the processor that is waited for.
-/

namespace UnifiedOS.SMP

open UnifiedOS.Foundation UnifiedOS.Paging

variable {s s' : BootState} {bootID p q : BitVec 8} {log : List BootEvent} {stack : Nat}

/-! ## The log -/

theorem mem_of_preparedStack (h : preparedStack p log = some stack) :
    .prepared p stack ∈ log := by
  induction log with
  | nil => contradiction
  | cons event log ih =>
      cases event with
      | prepared q stack' =>
          simp only [preparedStack] at h
          split at h
          · next heq =>
            rw [heq, Option.some.inj h]
            exact List.mem_cons_self
          · exact List.mem_cons_of_mem _ (ih h)
      | entered | queued | booted | failed => exact List.mem_cons_of_mem _ (ih h)

theorem HandOver.prepared {id : BitVec 16} (h : HandOver log)
    (hmem : .entered p id stack ∈ log) : .prepared p stack ∈ log := by
  induction log with
  | nil => contradiction
  | cons event log ih =>
      rcases List.mem_cons.mp hmem with rfl | hmem
      · exact List.mem_cons_of_mem _ (mem_of_preparedStack h.2.1)
      · refine List.mem_cons_of_mem _ (ih ?_ hmem)
        cases event with
        | prepared | queued | failed => exact h
        | entered => exact h.2.2.2
        | booted => exact h.2

theorem setWidth_inj (h : p.setWidth 16 = q.setWidth 16) : p = q := by
  have hback := congrArg (BitVec.setWidth 8) h
  simpa using hback

/-! ## Stacks -/

/-- Every prepared stack is the top of a page granted for it. -/
structure Stacks (s : BootState) : Prop where
  frames : GrantInv s.frames
  granted : ∀ p stack, .prepared p stack ∈ s.log →
    ∃ page, (page, 1) ∈ s.frames.grants ∧ stack = wrap64 (page + 0x1000)
  distinct : ∀ p q stack, .prepared p stack ∈ s.log → .prepared q stack ∈ s.log → p = q

/-- The mailbox holds a page that is not the stack of any processor yet. -/
def FreshPage (s : BootState) : Prop :=
  (s.smpStack, 1) ∈ s.frames.grants ∧
  ∀ p stack, .prepared p stack ∈ s.log →
    ∃ page, (page, 1) ∈ s.frames.grants ∧ stack = wrap64 (page + 0x1000) ∧
      page ≠ s.smpStack

theorem grants_requestPage {g : Nat × Nat} (h : g ∈ s.frames.grants) :
    g ∈ s.requestPage.frames.grants := by
  simp only [BootState.requestPage, recordGrant]
  split
  · exact h
  · exact List.mem_cons_of_mem _ h

theorem Stacks.requestPage (h : Stacks s) : Stacks s.requestPage := by
  constructor
  · exact grantInv_step h.frames (.requestPage s.frames)
  · intro p stack hmem
    obtain ⟨page, hgrant, hstack⟩ := h.granted p stack hmem
    exact ⟨page, grants_requestPage hgrant, hstack⟩
  · exact h.distinct

theorem Stacks.same (h : Stacks s) (hframes : s'.frames = s.frames) (hlog : s'.log = s.log) :
    Stacks s' := by
  constructor
  · rw [hframes]
    exact h.frames
  · rw [hframes, hlog]
    exact h.granted
  · rw [hlog]
    exact h.distinct

theorem Stacks.log_cons {event : BootEvent} (h : Stacks s)
    (hevent : ∀ p stack, event ≠ .prepared p stack) (hframes : s'.frames = s.frames)
    (hlog : s'.log = event :: s.log) : Stacks s' := by
  have hmem : ∀ p stack, .prepared p stack ∈ s'.log → .prepared p stack ∈ s.log := by
    intro p stack hmem
    rw [hlog] at hmem
    rcases List.mem_cons.mp hmem with heq | hmem
    · exact absurd heq.symm (hevent p stack)
    · exact hmem
  constructor
  · rw [hframes]
    exact h.frames
  · intro p stack hprepared
    rw [hframes]
    exact h.granted p stack (hmem p stack hprepared)
  · intro p q stack hp hq
    exact h.distinct p q stack (hmem p stack hp) (hmem q stack hq)

theorem page_lt {page : Nat} (h : GrantInv s.frames) (hgrant : (page, 1) ∈ s.frames.grants) :
    page < 2 ^ 63 := by
  have hstart := h.start _ hgrant
  obtain ⟨-, hlimit⟩ := limit_of_addressable h.addressable
  simp only at hstart
  omega

theorem freshPage_requestPage (h : Stacks s)
    (hpage : s.frames.allocator.requestPage.1 ≠ NULL)
    (hmailbox : s'.smpStack = s.frames.allocator.requestPage.1)
    (hframes : s'.frames = s.requestPage.frames) (hlog : s'.log = s.log) :
    FreshPage s' := by
  have hgrants : s'.frames.grants =
      (s.frames.allocator.requestPage.1, 1) :: s.frames.grants := by
    rw [hframes]
    exact if_neg hpage
  have hexclusive := h.requestPage.frames.exclusive
  rw [← hframes, hgrants] at hexclusive
  obtain ⟨hnew, -⟩ := List.pairwise_cons.mp hexclusive
  constructor
  · rw [hgrants, hmailbox]
    exact List.mem_cons_self
  · intro p stack hmem
    rw [hlog] at hmem
    obtain ⟨page, hgrant, hstack⟩ := h.granted p stack hmem
    refine ⟨page, ?_, hstack, ?_⟩
    · rw [hgrants]
      exact List.mem_cons_of_mem _ hgrant
    · intro hsame
      have hcovers : Covers (page, 1) (page / 4096) := by simp [Covers]
      rw [hmailbox] at hsame
      exact hnew _ hgrant _ (hsame ▸ hcovers) hcovers

theorem Stacks.prepare (h : Stacks s) (hfresh : FreshPage s) (hframes : s'.frames = s.frames)
    (hlog : s'.log = .prepared p (wrap64 (s.smpStack + 0x1000)) :: s.log) : Stacks s' := by
  have hnew : ∀ q, .prepared q (wrap64 (s.smpStack + 0x1000)) ∉ s.log := by
    intro q hmem
    obtain ⟨page, hgrant, hstack, hne⟩ := hfresh.2 q _ hmem
    have hpage := page_lt h.frames hgrant
    have hmailbox := page_lt h.frames hfresh.1
    rw [wrap64_of_lt (by omega), wrap64_of_lt (by omega)] at hstack
    omega
  constructor
  · rw [hframes]
    exact h.frames
  · intro q stack hmem
    rw [hlog] at hmem
    rw [hframes]
    rcases List.mem_cons.mp hmem with heq | hmem
    · cases heq
      exact ⟨s.smpStack, hfresh.1, rfl⟩
    · exact h.granted q stack hmem
  · intro q r stack hq hr
    rw [hlog] at hq hr
    rcases List.mem_cons.mp hq with heq | hq
    · cases heq
      rcases List.mem_cons.mp hr with heq | hr
      · cases heq
        rfl
      · exact absurd hr (hnew r)
    · rcases List.mem_cons.mp hr with heq | hr
      · cases heq
        exact absurd hq (hnew q)
      · exact h.distinct q r stack hq hr

/-! ## Whose turn it is -/

def InFlight : Startup → Prop
  | .waiting => False
  | .startup => False
  | .flagged => True
  | .stacked _ => True
  | .entered _ _ => True
  | .described _ _ => True
  | .queued _ _ => True
  | .running _ _ => False

def Quiet (s : BootState) : Prop := ∀ p, ¬ InFlight (s.processors p)

structure Mailbox (s : BootState) (p : BitVec 8) : Prop where
  id : s.smpID = p.setWidth 16
  stack : preparedStack p s.log = some s.smpStack

/-- What a processor relies on, by how far it has come. -/
def Relies (s : BootState) (p : BitVec 8) : Startup → Prop
  | .waiting => True
  | .startup => True
  | .flagged => Mailbox s p
  | .stacked rsp => s.smpID = p.setWidth 16 ∧ preparedStack p s.log = some rsp
  | .entered id _ => id = p.setWidth 16
  | .described id _ => id = p.setWidth 16
  | .queued id _ => id = p.setWidth 16 ∧ QueuedSince p s.log
  | .running _ _ => True

/-- No processor is in flight and none has been waited for in vain. -/
structure Preparing (s : BootState) : Prop where
  quiet : Quiet s
  clear : s.doneInit = false

structure Served (s : BootState) (p : BitVec 8) : Prop where
  quiet : Quiet s
  queued : QueuedSince p s.log
  running : ∃ id rsp, s.processors p = .running id rsp

structure Window (s : BootState) (p : BitVec 8) : Prop where
  mailbox : Mailbox s p
  alone : ∀ q, InFlight (s.processors q) → q = p
  served : s.doneInit = true → Served s p

/-- A processor that has started is seen by the checks. -/
def Seen (s : BootState) (p : BitVec 8) : Prop :=
  InFlight (s.processors p) ∨ s.doneInit = true → s.magic = smpMagic

def Turn (s : BootState) (p : BitVec 8) : Stage → Prop
  | .newCPU => Preparing s
  | .clearMagic => Preparing s
  | .writeID => Preparing s
  | .requestStack => Preparing s ∧ s.smpID = p.setWidth 16
  | .raiseStack => Preparing s ∧ s.smpID = p.setWidth 16 ∧ FreshPage s
  | .sendInit => Preparing s ∧ Mailbox s p
  | .firstCheck => Preparing s ∧ Mailbox s p
  | .secondCheck => Window s p ∧ Seen s p
  | .thirdCheck => Window s p ∧ Seen s p
  | .awaitInit => Window s p
  | .clearInit => Mailbox s p ∧ Served s p

structure AtLoop (bootID : BitVec 8) (s : BootState) : Prop where
  mailbox : ∀ p, s.processors p = .startup → s.smpID = p.setWidth 16 → Mailbox s p
  preparing : (∃ id ∈ s.todo, id ≠ bootID) → Preparing s

structure BootInv (bootID : BitVec 8) (s : BootState) : Prop where
  pages : Stacks s
  handOver : HandOver s.log
  relies : ∀ p, Relies s p (s.processors p)
  loop : s.boot = none → AtLoop bootID s
  turn : ∀ stage p, s.boot = some (stage, p) → Turn s p stage

theorem Quiet.relies (h : Quiet s) (hsame : s'.processors = s.processors) :
    ∀ p, Relies s' p (s'.processors p) := by
  intro p
  rw [hsame]
  cases hphase : s.processors p with
  | waiting | startup | running => trivial
  | flagged | stacked | entered | described | queued =>
      have hin := h p
      rw [hphase] at hin
      exact absurd trivial hin

theorem Quiet.setProcessor {phase : Startup} (h : Quiet s) (hphase : ¬ InFlight phase) :
    Quiet (s.setProcessor p phase) := by
  intro q
  by_cases hq : q = p
  · subst hq
    simpa [BootState.setProcessor] using hphase
  · simp only [BootState.setProcessor, Function.update_of_ne hq]
    exact h q

structure KeepsLog (s s' : BootState) (p : BitVec 8) : Prop where
  stack : preparedStack p s'.log = preparedStack p s.log
  queued : QueuedSince p s.log → QueuedSince p s'.log

theorem KeepsLog.same (hlog : s'.log = s.log) : KeepsLog s s' p :=
  ⟨by rw [hlog], fun hqueued => by rwa [hlog]⟩

theorem Mailbox.keep (h : Mailbox s p) (hlog : KeepsLog s s' p) (hid : s'.smpID = s.smpID)
    (hstack : s'.smpStack = s.smpStack) : Mailbox s' p := by
  constructor
  · rw [hid]
    exact h.id
  · rw [hlog.stack, hstack]
    exact h.stack

theorem Relies.keep {phase : Startup} (h : Relies s p phase) (hlog : KeepsLog s s' p)
    (hid : s'.smpID = s.smpID) (hstack : s'.smpStack = s.smpStack) : Relies s' p phase := by
  cases phase with
  | waiting | startup | running => trivial
  | flagged => exact Mailbox.keep h hlog hid hstack
  | stacked rsp =>
      obtain ⟨hown, hprepared⟩ := h
      refine ⟨?_, ?_⟩
      · rw [hid]
        exact hown
      · rw [hlog.stack]
        exact hprepared
  | entered id rsp => exact h
  | described id rsp => exact h
  | queued id rsp => exact ⟨h.1, hlog.queued h.2⟩

structure SameView (s s' : BootState) : Prop where
  processors : s'.processors = s.processors
  magic : s'.magic = s.magic
  id : s'.smpID = s.smpID
  stack : s'.smpStack = s.smpStack
  doneInit : s'.doneInit = s.doneInit
  log : ∀ q, KeepsLog s s' q

section SameView

variable (hview : SameView s s')

include hview

theorem Preparing.keep (h : Preparing s) : Preparing s' := by
  constructor
  · intro q
    rw [hview.processors]
    exact h.quiet q
  · rw [hview.doneInit]
    exact h.clear

theorem Served.keep (h : Served s p) : Served s' p := by
  constructor
  · intro q
    rw [hview.processors]
    exact h.quiet q
  · exact (hview.log p).queued h.queued
  · rw [hview.processors]
    exact h.running

theorem Window.keep (h : Window s p) : Window s' p := by
  constructor
  · exact h.mailbox.keep (hview.log p) hview.id hview.stack
  · intro q
    rw [hview.processors]
    exact h.alone q
  · intro hdone
    rw [hview.doneInit] at hdone
    exact (h.served hdone).keep hview

theorem Seen.keep (h : Seen s p) : Seen s' p := by
  unfold Seen
  rw [hview.processors, hview.doneInit, hview.magic]
  exact h

theorem AtLoop.keep (h : AtLoop bootID s) (htodo : ∀ id ∈ s'.todo, id ∈ s.todo) :
    AtLoop bootID s' := by
  constructor
  · intro q hq hid
    rw [hview.processors] at hq
    rw [hview.id] at hid
    exact (h.mailbox q hq hid).keep (hview.log q) hview.id hview.stack
  · rintro ⟨id, hmem, hne⟩
    exact (h.preparing ⟨id, htodo id hmem, hne⟩).keep hview

end SameView

/-- A processor in flight is the one that is waited for, or the last one of the loop. -/
theorem BootInv.inFlight (h : BootInv bootID s) (hp : InFlight (s.processors p)) :
    (s.boot = none ∧ ∀ id ∈ s.todo, id = bootID) ∨
    (∃ stage, s.boot = some (stage, p) ∧ Window s p ∧ s.doneInit = false ∧
      (stage = .awaitInit ∨ (stage = .secondCheck ∨ stage = .thirdCheck) ∧ Seen s p)) := by
  have hwindow : ∀ q, Window s q → q = p ∧ s.doneInit = false := by
    intro q hq
    refine ⟨(hq.alone p hp).symm, ?_⟩
    cases hdone : s.doneInit with
    | false => rfl
    | true => exact absurd hp ((hq.served hdone).quiet p)
  cases hboot : s.boot with
  | none =>
      left
      refine ⟨rfl, ?_⟩
      intro id hid
      by_contra hne
      exact ((h.loop hboot).preparing ⟨id, hid, hne⟩).quiet p hp
  | some at_ =>
      right
      obtain ⟨stage, q⟩ := at_
      have hturn := h.turn stage q hboot
      cases stage with
      | newCPU | clearMagic | writeID => exact absurd hp (hturn.quiet p)
      | requestStack | raiseStack | sendInit | firstCheck =>
          exact absurd hp (hturn.1.quiet p)
      | clearInit => exact absurd hp (hturn.2.quiet p)
      | awaitInit =>
          obtain ⟨rfl, hdone⟩ := hwindow q hturn
          exact ⟨_, rfl, hturn, hdone, .inl rfl⟩
      | secondCheck =>
          obtain ⟨rfl, hdone⟩ := hwindow q hturn.1
          exact ⟨_, rfl, hturn.1, hdone, .inr ⟨.inl rfl, hturn.2⟩⟩
      | thirdCheck =>
          obtain ⟨rfl, hdone⟩ := hwindow q hturn.1
          exact ⟨_, rfl, hturn.1, hdone, .inr ⟨.inr rfl, hturn.2⟩⟩

/-! ## The steps of a processor -/

structure SameMailbox (s s' : BootState) : Prop where
  boot : s'.boot = s.boot
  todo : s'.todo = s.todo
  magic : s'.magic = s.magic
  id : s'.smpID = s.smpID
  stack : s'.smpStack = s.smpStack
  doneInit : s'.doneInit = s.doneInit

section ProcessorStep

variable {phase : Startup}

theorem processors_self (hprocessors : s'.processors = Function.update s.processors p phase) :
    s'.processors p = phase := by
  rw [hprocessors, Function.update_self]

theorem processors_other (hprocessors : s'.processors = Function.update s.processors p phase)
    (hq : q ≠ p) : s'.processors q = s.processors q := by
  rw [hprocessors, Function.update_of_ne hq]

/-- A step of `p` is no step of the others, who find what they rely on as it was. -/
theorem relies_step (hprocessors : s'.processors = Function.update s.processors p phase)
    (hlog : ∀ q, KeepsLog s s' q) (hid : s'.smpID = s.smpID) (hstack : s'.smpStack = s.smpStack)
    (h : ∀ q, Relies s q (s.processors q)) (hrelies : Relies s' p phase) :
    ∀ q, Relies s' q (s'.processors q) := by
  intro q
  by_cases hq : q = p
  · rw [hq, processors_self hprocessors]
    exact hrelies
  · rw [processors_other hprocessors hq]
    exact (h q).keep (hlog q) hid hstack

theorem AtLoop.step (h : AtLoop bootID s)
    (hprocessors : s'.processors = Function.update s.processors p phase)
    (hlog : ∀ q, KeepsLog s s' q) (hid : s'.smpID = s.smpID) (hstack : s'.smpStack = s.smpStack)
    (hphase : phase ≠ .startup) (hlast : ∀ id ∈ s'.todo, id = bootID) : AtLoop bootID s' := by
  constructor
  · intro q hq hown
    have hne : q ≠ p := by
      rintro rfl
      rw [processors_self hprocessors] at hq
      exact hphase hq
    rw [processors_other hprocessors hne] at hq
    rw [hid] at hown
    exact (h.mailbox q hq hown).keep (hlog q) hid hstack
  · rintro ⟨id, hmem, hne⟩
    exact absurd (hlast id hmem) hne

theorem Window.alone_step (h : Window s p)
    (hprocessors : s'.processors = Function.update s.processors p phase) :
    ∀ q, InFlight (s'.processors q) → q = p := by
  intro q hq
  by_contra hne
  rw [processors_other hprocessors hne] at hq
  exact hne (h.alone q hq)

end ProcessorStep

theorem BootInv.last (h : BootInv bootID s) (hp : InFlight (s.processors p))
    (hnone : s.boot = none) : ∀ id ∈ s.todo, id = bootID := by
  rcases h.inFlight hp with ⟨-, hlast⟩ | ⟨stage, hstage, -⟩
  · exact hlast
  · rw [hstage] at hnone
    contradiction

theorem BootInv.advance {phase : Startup} (h : BootInv bootID s)
    (hp : InFlight (s.processors p)) (hsame : SameMailbox s s')
    (hprocessors : s'.processors = Function.update s.processors p phase)
    (hphase : InFlight phase) (hlog : ∀ q, KeepsLog s s' q) (hpages : Stacks s')
    (hover : HandOver s'.log) (hrelies : Relies s' p phase) : BootInv bootID s' := by
  constructor
  · exact hpages
  · exact hover
  · exact relies_step hprocessors hlog hsame.id hsame.stack h.relies hrelies
  · intro hnone
    rw [hsame.boot] at hnone
    refine (h.loop hnone).step hprocessors hlog hsame.id hsame.stack ?_ ?_
    · rintro rfl
      exact hphase
    · rw [hsame.todo]
      exact h.last hp hnone
  · intro stage q hboot
    rw [hsame.boot] at hboot
    rcases h.inFlight hp with ⟨hnone, -⟩ | ⟨stage', hstage, hwindow, hdone, hcheck⟩
    · rw [hnone] at hboot
      contradiction
    · rw [hstage] at hboot
      cases hboot
      have hwindow' : Window s' p := by
        constructor
        · exact hwindow.mailbox.keep (hlog p) hsame.id hsame.stack
        · exact hwindow.alone_step hprocessors
        · intro hset
          rw [hsame.doneInit, hdone] at hset
          contradiction
      have hseen : Seen s p → Seen s' p := by
        intro hseen _
        rw [hsame.magic]
        exact hseen (.inl hp)
      rcases hcheck with rfl | ⟨rfl | rfl, hs⟩
      · exact hwindow'
      · exact ⟨hwindow', hseen hs⟩
      · exact ⟨hwindow', hseen hs⟩

theorem BootInv.start (h : BootInv bootID s) (hp : s.processors p = .startup)
    (hontime : OnTime bootID s (.processor p)) :
    BootInv bootID { s.setProcessor p .flagged with magic := smpMagic } := by
  have hmailbox : Mailbox s p := by
    rcases hontime hp with hstage | hstage | ⟨hnone, -, hid⟩
    · exact (h.turn _ p hstage).1.mailbox
    · exact (h.turn _ p hstage).1.mailbox
    · exact (h.loop hnone).mailbox p hp hid
  have hwindow : Window s p →
      Window { s.setProcessor p .flagged with magic := smpMagic } p := by
    intro hwindow
    constructor
    · exact ⟨hwindow.mailbox.id, hwindow.mailbox.stack⟩
    · exact hwindow.alone_step rfl
    · intro hdone
      obtain ⟨id, rsp, hrunning⟩ := (hwindow.served hdone).running
      rw [hp] at hrunning
      contradiction
  constructor
  · exact h.pages.same rfl rfl
  · exact h.handOver
  · exact relies_step rfl (fun q => .same rfl) rfl rfl h.relies ⟨hmailbox.id, hmailbox.stack⟩
  · intro hnone
    refine (h.loop hnone).step rfl (fun q => .same rfl) rfl rfl (by simp) ?_
    rcases hontime hp with hstage | hstage | ⟨-, hall, -⟩
    · exact absurd (hnone.symm.trans hstage) (by simp)
    · exact absurd (hnone.symm.trans hstage) (by simp)
    · exact hall
  · intro stage q hboot
    rcases hontime hp with hstage | hstage | ⟨hnone, -, -⟩
    · cases hstage.symm.trans hboot
      exact ⟨hwindow (h.turn _ p hstage).1, fun _ => rfl⟩
    · cases hstage.symm.trans hboot
      exact ⟨hwindow (h.turn _ p hstage).1, fun _ => rfl⟩
    · exact absurd (hnone.symm.trans hboot) (by simp)

theorem BootInv.report {id : BitVec 16} {rsp : Nat} (h : BootInv bootID s)
    (hp : s.processors p = .queued id rsp) :
    BootInv bootID { s.setProcessor p (.running id rsp) with doneInit := true } := by
  have hin : InFlight (s.processors p) := by
    rw [hp]
    trivial
  have hqueued := h.relies p
  rw [hp] at hqueued
  constructor
  · exact h.pages.same rfl rfl
  · exact h.handOver
  · exact relies_step rfl (fun q => .same rfl) rfl rfl h.relies trivial
  · intro hnone
    exact (h.loop hnone).step rfl (fun q => .same rfl) rfl rfl (by simp) (h.last hin hnone)
  · intro stage q hboot
    rcases h.inFlight hin with ⟨hnone, -⟩ | ⟨stage', hstage, hwindow, -, hcheck⟩
    · exact absurd (hnone.symm.trans hboot) (by simp)
    · cases hstage.symm.trans hboot
      have hself : (s.setProcessor p (.running id rsp)).processors p = .running id rsp :=
        processors_self rfl
      have hquiet : Quiet { s.setProcessor p (.running id rsp) with doneInit := true } := by
        intro q hq
        obtain rfl := hwindow.alone_step rfl q hq
        simp only [hself] at hq
        exact hq
      have hwindow' :
          Window { s.setProcessor p (.running id rsp) with doneInit := true } p := by
        constructor
        · exact ⟨hwindow.mailbox.id, hwindow.mailbox.stack⟩
        · exact hwindow.alone_step rfl
        · intro _
          exact ⟨hquiet, hqueued.2, id, rsp, hself⟩
      rcases hcheck with rfl | ⟨rfl | rfl, hs⟩
      · exact hwindow'
      · exact ⟨hwindow', fun _ => hs (.inl hin)⟩
      · exact ⟨hwindow', fun _ => hs (.inl hin)⟩

theorem BootInv.processorNext (h : BootInv bootID s)
    (hontime : OnTime bootID s (.processor p)) : BootInv bootID (s.processorNext p) := by
  have hrelies := h.relies p
  unfold BootState.processorNext
  cases hp : s.processors p with
  | waiting => exact h
  | running id rsp => exact h
  | startup => exact h.start hp hontime
  | flagged =>
      rw [hp] at hrelies
      exact h.advance (by rw [hp]; trivial) ⟨rfl, rfl, rfl, rfl, rfl, rfl⟩ rfl trivial
        (fun q => .same rfl) (h.pages.same rfl rfl) h.handOver ⟨hrelies.id, hrelies.stack⟩
  | stacked rsp =>
      rw [hp] at hrelies
      obtain ⟨hid, hstack⟩ := hrelies
      have halone : ∀ q id, q ≠ p → .entered q id rsp ∉ s.log := by
        intro q id hne hmem
        exact hne (h.pages.distinct q p rsp (h.handOver.prepared hmem)
          (mem_of_preparedStack hstack))
      exact h.advance (by rw [hp]; trivial) ⟨rfl, rfl, rfl, rfl, rfl, rfl⟩ rfl trivial
        (fun q => ⟨rfl, fun hqueued => hqueued⟩)
        (h.pages.log_cons (fun _ _ => by simp) rfl rfl)
        ⟨hid, hstack, halone, h.handOver⟩ hid
  | entered id rsp =>
      rw [hp] at hrelies
      exact h.advance (by rw [hp]; trivial) ⟨rfl, rfl, rfl, rfl, rfl, rfl⟩ rfl trivial
        (fun q => .same rfl) (h.pages.requestPage.same rfl rfl) h.handOver hrelies
  | described id rsp =>
      rw [hp] at hrelies
      exact h.advance (by rw [hp]; trivial) ⟨rfl, rfl, rfl, rfl, rfl, rfl⟩ rfl trivial
        (fun q => ⟨rfl, Or.inr⟩)
        (h.pages.log_cons (fun _ _ => by simp) rfl rfl) h.handOver
        ⟨hrelies, Or.inl ⟨rfl, hrelies⟩⟩
  | queued id rsp => exact h.report hp

/-! ## The steps of the boot processor -/

theorem BootInv.goOn {stage : Stage} (hpages : Stacks s') (hover : HandOver s'.log)
    (hquiet : Quiet s') (hboot : s'.boot = some (stage, p)) (hturn : Turn s' p stage) :
    BootInv bootID s' := by
  refine ⟨hpages, hover, hquiet.relies rfl, ?_, ?_⟩
  · intro hnone
    rw [hnone] at hboot
    contradiction
  · intro stage' q hboot'
    rw [hboot] at hboot'
    cases hboot'
    exact hturn

theorem BootInv.of_sameView (h : BootInv bootID s) (hview : SameView s s')
    (hpages : Stacks s') (hover : HandOver s'.log)
    (hloop : s'.boot = none → AtLoop bootID s')
    (hturn : ∀ stage p, s'.boot = some (stage, p) → Turn s' p stage) :
    BootInv bootID s' := by
  refine ⟨hpages, hover, ?_, hloop, hturn⟩
  intro q
  rw [hview.processors]
  exact (h.relies q).keep (hview.log q) hview.id hview.stack

theorem BootInv.goTo {stage : Stage} (h : BootInv bootID s)
    (hturn : Turn { s with boot := some (stage, p) } p stage) :
    BootInv bootID { s with boot := some (stage, p) } := by
  refine h.of_sameView ⟨rfl, rfl, rfl, rfl, rfl, fun _ => .same rfl⟩ (h.pages.same rfl rfl)
    h.handOver (fun hnone => nomatch hnone) ?_
  rintro _ _ ⟨⟩
  exact hturn

theorem Mailbox.atLoop (h : Mailbox s p) (hprep : Preparing s) : AtLoop bootID s := by
  constructor
  · intro q _ hq
    obtain rfl : q = p := setWidth_inj (hq.symm.trans h.id)
    exact h
  · exact fun _ => hprep

theorem Mailbox.opens (h : Mailbox s p) (hprep : Preparing s) : Window s p ∧ Seen s p := by
  have hdone : s.doneInit ≠ true := by
    rw [hprep.clear]
    exact Bool.false_ne_true
  constructor
  · exact ⟨h, fun q hq => absurd hq (hprep.quiet q), fun hset => absurd hset hdone⟩
  · rintro (hin | hset)
    · exact absurd hin (hprep.quiet p)
    · exact absurd hset hdone

/-- The last check closes the window if it sees nobody. -/
theorem Window.closes (h : Window s p) (hseen : Seen s p) (hmagic : s.magic ≠ smpMagic) :
    Preparing s := by
  constructor
  · intro q hq
    obtain rfl := h.alone q hq
    exact hmagic (hseen (.inl hq))
  · cases hdone : s.doneInit with
    | false => rfl
    | true => exact absurd (hseen (.inr hdone)) hmagic

theorem BootInv.giveUp (h : BootInv bootID s) (hwindow : Window s p) (hseen : Seen s p)
    (hmagic : s.magic ≠ smpMagic) :
    BootInv bootID { s with boot := none, log := .failed p :: s.log } := by
  have hview : SameView s { s with boot := none, log := .failed p :: s.log } :=
    ⟨rfl, rfl, rfl, rfl, rfl, fun _ => ⟨rfl, fun hqueued => hqueued⟩⟩
  have hloop : AtLoop bootID s := hwindow.mailbox.atLoop (hwindow.closes hseen hmagic)
  exact h.of_sameView hview (h.pages.log_cons (fun _ _ => by simp) rfl rfl) h.handOver
    (fun _ => hloop.keep hview fun _ hmem => hmem) (fun _ _ hsome => nomatch hsome)

theorem BootInv.initializeCPU {stage : Stage} (h : BootInv bootID s)
    (hboot : s.boot = some (stage, p)) (hontime : OnTime bootID s .bootProcessor) :
    BootInv bootID (s.initializeCPU p stage) := by
  have hturn := h.turn stage p hboot
  have hview : ∀ {boot : Option (Stage × BitVec 8)}, SameView s { s with boot := boot } :=
    ⟨rfl, rfl, rfl, rfl, rfl, fun _ => .same rfl⟩
  cases stage with
  | newCPU =>
      exact .goOn (h.pages.same rfl rfl) h.handOver hturn.quiet rfl ⟨hturn.quiet, hturn.clear⟩
  | clearMagic =>
      exact .goOn (h.pages.same rfl rfl) h.handOver hturn.quiet rfl ⟨hturn.quiet, hturn.clear⟩
  | writeID =>
      exact .goOn (h.pages.same rfl rfl) h.handOver hturn.quiet rfl
        ⟨⟨hturn.quiet, hturn.clear⟩, rfl⟩
  | requestStack =>
      obtain ⟨hprep, hid⟩ := hturn
      have hfresh : FreshPage (s.initializeCPU p .requestStack) :=
        freshPage_requestPage h.pages (hontime p hboot) rfl rfl rfl
      exact .goOn (h.pages.requestPage.same rfl rfl) h.handOver hprep.quiet rfl
        ⟨⟨hprep.quiet, hprep.clear⟩, hid, hfresh⟩
  | raiseStack =>
      obtain ⟨hprep, hid, hfresh⟩ := hturn
      exact .goOn (h.pages.prepare hfresh rfl rfl) h.handOver hprep.quiet rfl
        ⟨⟨hprep.quiet, hprep.clear⟩, hid, if_pos rfl⟩
  | sendInit =>
      obtain ⟨hprep, hmailbox⟩ := hturn
      have hquiet : Quiet (s.setProcessor p .waiting) := hprep.quiet.setProcessor id
      exact .goOn (h.pages.same rfl rfl) h.handOver hquiet rfl
        ⟨⟨hquiet, hprep.clear⟩, hmailbox.id, hmailbox.stack⟩
  | firstCheck =>
      obtain ⟨hprep, hmailbox⟩ := hturn
      simp only [BootState.initializeCPU]
      split
      · have hquiet : Quiet (s.setProcessor p .startup) := hprep.quiet.setProcessor id
        exact .goOn (h.pages.same rfl rfl) h.handOver hquiet rfl
          (Mailbox.opens ⟨hmailbox.id, hmailbox.stack⟩ ⟨hquiet, hprep.clear⟩)
      · exact h.goTo (Mailbox.opens ⟨hmailbox.id, hmailbox.stack⟩ ⟨hprep.quiet, hprep.clear⟩)
  | secondCheck =>
      obtain ⟨hwindow, hseen⟩ := hturn
      exact h.goTo ⟨hwindow.keep hview, hseen.keep hview⟩
  | thirdCheck =>
      obtain ⟨hwindow, hseen⟩ := hturn
      simp only [BootState.initializeCPU]
      split
      · next hmagic => exact h.giveUp hwindow hseen hmagic
      · exact h.goTo (Window.keep hview hwindow)
  | awaitInit =>
      have hwindow : Window s p := hturn
      simp only [BootState.initializeCPU]
      split
      · next hdone =>
        exact h.goTo ⟨hwindow.mailbox.keep (.same rfl) rfl rfl, (hwindow.served hdone).keep hview⟩
      · exact h
  | clearInit =>
      obtain ⟨hmailbox, hserved⟩ := hturn
      refine ⟨h.pages.log_cons (fun _ _ => by simp) rfl rfl, ⟨hserved.queued, h.handOver⟩,
        hserved.quiet.relies rfl, fun _ => ?_, fun _ _ hsome => nomatch hsome⟩
      exact Mailbox.atLoop (p := p) ⟨hmailbox.id, hmailbox.stack⟩ ⟨hserved.quiet, rfl⟩

theorem BootInv.bootNext (h : BootInv bootID s)
    (hontime : OnTime bootID s .bootProcessor) : BootInv bootID (s.bootNext bootID) := by
  unfold BootState.bootNext
  cases hboot : s.boot with
  | some at_ => exact h.initializeCPU hboot hontime
  | none =>
      have hloop := h.loop hboot
      cases htodo : s.todo with
      | nil => exact h
      | cons id todo =>
          dsimp only
          split
          · have hview : SameView s { s with todo := todo, boot := none } :=
              ⟨rfl, rfl, rfl, rfl, rfl, fun _ => .same rfl⟩
            refine h.of_sameView hview (h.pages.same rfl rfl) h.handOver
              (fun _ => hloop.keep hview ?_) (fun _ _ hsome => nomatch hsome)
            intro id' hmem
            rw [htodo]
            exact List.mem_cons_of_mem _ hmem
          · next hne =>
            have hprep := hloop.preparing ⟨id, by rw [htodo]; exact List.mem_cons_self, hne⟩
            exact .goOn (h.pages.same rfl rfl) h.handOver hprep.quiet rfl
              ⟨hprep.quiet, hprep.clear⟩

theorem BootInv.requestPage (h : BootInv bootID s) : BootInv bootID s.requestPage := by
  have hview : SameView s s.requestPage :=
    ⟨rfl, rfl, rfl, rfl, rfl, fun _ => .same rfl⟩
  refine h.of_sameView hview h.pages.requestPage h.handOver
    (fun hnone => (h.loop hnone).keep hview fun _ hmem => hmem) ?_
  intro stage p hboot
  have hturn := h.turn stage p hboot
  cases stage with
  | newCPU | clearMagic | writeID => exact Preparing.keep hview hturn
  | requestStack => exact ⟨hturn.1.keep hview, hturn.2⟩
  | raiseStack =>
      obtain ⟨hprep, hid, hgrant, hfresh⟩ := hturn
      refine ⟨hprep.keep hview, hid, grants_requestPage hgrant, ?_⟩
      intro q stack hmem
      obtain ⟨page, hpage, hstack, hne⟩ := hfresh q stack hmem
      exact ⟨page, grants_requestPage hpage, hstack, hne⟩
  | sendInit | firstCheck =>
      exact ⟨hturn.1.keep hview, hturn.2.keep (hview.log p) rfl rfl⟩
  | secondCheck | thirdCheck => exact ⟨hturn.1.keep hview, hturn.2.keep hview⟩
  | awaitInit => exact Window.keep hview hturn
  | clearInit => exact ⟨hturn.1.keep (hview.log p) rfl rfl, hturn.2.keep hview⟩

theorem bootInv_poweredOn (h : PoweredOn s) : BootInv bootID s := by
  have hquiet : Quiet s := by
    intro p
    rw [h.processors p]
    exact id
  constructor
  · constructor
    · exact ⟨h.bitmap, by simp [h.grants], by simp [h.grants], by simp [h.grants],
        by simp [h.grants]⟩
    · simp [h.log]
    · simp [h.log]
  · rw [h.log]
    trivial
  · exact hquiet.relies rfl
  · intro _
    constructor
    · intro p hp
      rw [h.processors p] at hp
      contradiction
    · exact fun _ => ⟨hquiet, h.doneInit⟩
  · intro stage p hboot
    rw [h.boot] at hboot
    contradiction

theorem handOver_onTime
    (hreach : Reachable PoweredOn
      (fun s s' => ∃ agent, OnTime bootID s agent ∧ s' = bootStep bootID s agent) s) :
    HandOver s.log := by
  have hinv : BootInv bootID s := by
    refine hreach.invariant (fun s h => bootInv_poweredOn h) ?_
    rintro s _ h ⟨agent, hontime, rfl⟩
    cases agent with
    | bootProcessor => exact h.bootNext hontime
    | processor p => exact h.processorNext hontime
    | heap => exact h.requestPage
  exact hinv.handOver

def threeProcessors : BootState :=
  ⟨[0, 1, 2], none, fun _ => .waiting, 0, 0, 0, false, fun _ => none, 1,
    ⟨smallAllocator, []⟩, []⟩

theorem poweredOn_threeProcessors : PoweredOn threeProcessors :=
  ⟨rfl, fun _ => rfl, rfl,
    by norm_num [Bitmap.Addressable, smallAllocator, threeProcessors], rfl, rfl⟩

/-- A boot in time: STARTUP, the processor's own set-up, and the remaining checks. -/
def bootInTime (p : BitVec 8) : List BootAgent :=
  List.replicate 6 .bootProcessor ++ .heap :: List.replicate 2 .bootProcessor ++
    List.replicate 6 (.processor p) ++ List.replicate 4 .bootProcessor

theorem handOver_onTime_three :
    (bootRun 0 threeProcessors (.bootProcessor :: bootInTime 1 ++ bootInTime 2)).log =
        [.booted 2, .queued 2 2, .entered 2 2 0x5000, .prepared 2 0x5000,
          .booted 1, .queued 1 1, .entered 1 1 0x2000, .prepared 1 0x2000] ∧
      HandOver (bootRun 0 threeProcessors (.bootProcessor :: bootInTime 1 ++ bootInTime 2)).log :=
  ⟨by decide +kernel, @handOver_onTime _ 0
    (.of_scheduled poweredOn_threeProcessors (by decide +kernel))⟩

/-- Processor 1 starts after its boot has failed, while processor 2 is waited for. -/
def lateStart : List BootAgent :=
  List.replicate 19 .bootProcessor ++ List.replicate 7 (.processor 1) ++
    List.replicate 4 .bootProcessor

theorem late_processor_enters_for_another :
    ¬ ∀ (bootID : BitVec 8) (s : BootState) (schedule : List BootAgent),
      PoweredOn s → HandOver (bootRun bootID s schedule).log := by
  intro hall
  have hover := hall 0 threeProcessors lateStart poweredOn_threeProcessors
  have hlog : (bootRun 0 threeProcessors lateStart).log =
      [.booted 2, .queued 1 2, .entered 1 2 0x3000, .prepared 2 0x3000, .failed 1,
        .prepared 1 0x2000] := by
    decide +kernel
  rw [hlog] at hover
  exact absurd hover.2.1 (by decide)

end UnifiedOS.SMP
