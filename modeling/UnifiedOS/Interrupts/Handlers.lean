import Mathlib.Data.List.Induction
import UnifiedOS.Interrupts.DescriptorTable

/-!
# The handlers of the interrupts

A handler enters itself into the table of its manager when it is constructed and
takes itself out when it is destroyed, unless another one has taken its place.
Handlers are named by their addresses, which may be used again once they are free.
-/

namespace UnifiedOS.Interrupts

open UnifiedOS.Foundation

abbrev Pointer := Nat

/-- The manager's table, and the field `interrupt` of the handlers in memory. -/
structure InterruptManager where
  handlers : Byte → Option Pointer
  interrupt : Pointer → Byte

namespace InterruptManager

def construct (s : InterruptManager) (handler : Pointer) (interruptNumber : Byte) :
    InterruptManager where
  handlers := Function.update s.handlers interruptNumber (some handler)
  interrupt := Function.update s.interrupt handler interruptNumber

def destroy (s : InterruptManager) (handler : Pointer) : InterruptManager :=
  if s.handlers (s.interrupt handler) = some handler then
    { s with handlers := Function.update s.handlers (s.interrupt handler) none }
  else s

end InterruptManager

inductive HandlerEvent where
  | construct (handler : Pointer) (interruptNumber : Byte)
  | destroy (handler : Pointer)
  deriving DecidableEq, Repr

namespace HandlerEvent

def apply (s : InterruptManager) : HandlerEvent → InterruptManager
  | construct handler interruptNumber => s.construct handler interruptNumber
  | destroy handler => s.destroy handler

def live (before : List Pointer) : HandlerEvent → List Pointer
  | construct handler _ => handler :: before
  | destroy handler => before.erase handler

/-- A handler is constructed where none is, and only what is there is destroyed. -/
def Proper (before : List Pointer) : HandlerEvent → Prop
  | construct handler _ => handler ∉ before
  | destroy handler => handler ∈ before

end HandlerEvent

def noHandlers : InterruptManager := ⟨fun _ => none, fun _ => 0⟩

def runHandlers (events : List HandlerEvent) : InterruptManager :=
  events.foldl HandlerEvent.apply noHandlers

def liveHandlers (events : List HandlerEvent) : List Pointer :=
  events.foldl HandlerEvent.live []

def ProperFrom (before : List Pointer) : List HandlerEvent → Prop
  | [] => True
  | event :: events => event.Proper before ∧ ProperFrom (event.live before) events

abbrev ProperRun (events : List HandlerEvent) : Prop := ProperFrom [] events

/-! ## What the table holds -/

/-- Every entry is a handler in memory that was constructed for this vector. -/
structure TableInv (s : InterruptManager) (live : List Pointer) : Prop where
  nodup : live.Nodup
  live : ∀ vector handler, s.handlers vector = some handler → handler ∈ live
  interrupt : ∀ vector handler, s.handlers vector = some handler → s.interrupt handler = vector

section Steps

variable {s : InterruptManager} {live : List Pointer} {handler other : Pointer}
  {vector interruptNumber : Byte} {event : HandlerEvent} {events : List HandlerEvent}

theorem handlers_construct : (s.construct handler interruptNumber).handlers vector =
    if vector = interruptNumber then some handler else s.handlers vector :=
  Function.update_apply _ _ _ _

theorem handlers_destroy (h : TableInv s live) : (s.destroy handler).handlers vector =
    if s.handlers vector = some handler then none else s.handlers vector := by
  unfold InterruptManager.destroy
  by_cases hvector : vector = s.interrupt handler
  · subst hvector
    split
    · simp
    · rfl
  · have hother : s.handlers vector ≠ some handler := fun hentry =>
      hvector (h.interrupt vector handler hentry).symm
    rw [if_neg hother]
    split
    · exact Function.update_of_ne hvector _ _
    · rfl

theorem interrupt_destroy : (s.destroy handler).interrupt = s.interrupt := by
  unfold InterruptManager.destroy
  split <;> rfl

theorem TableInv.apply (h : TableInv s live) (hproper : event.Proper live) :
    TableInv (event.apply s) (event.live live) := by
  cases event with
  | construct handler interruptNumber =>
      refine ⟨List.nodup_cons.mpr ⟨hproper, h.nodup⟩, ?_, ?_⟩
      · intro vector other hentry
        rw [HandlerEvent.apply, handlers_construct] at hentry
        split at hentry
        · rw [← Option.some.inj hentry]
          exact List.mem_cons_self
        · exact List.mem_cons_of_mem handler (h.live vector other hentry)
      · intro vector other hentry
        rw [HandlerEvent.apply, handlers_construct] at hentry
        rw [HandlerEvent.apply, InterruptManager.construct]
        split at hentry
        · rename_i hvector
          rw [← Option.some.inj hentry, hvector]
          exact Function.update_self handler _ _
        · have hne : other ≠ handler := by
            rintro rfl
            exact hproper (h.live vector other hentry)
          dsimp only
          rw [Function.update_of_ne hne]
          exact h.interrupt vector other hentry
  | destroy handler =>
      have hkept : ∀ vector other, ((HandlerEvent.destroy handler).apply s).handlers vector =
          some other → s.handlers vector = some other ∧ other ≠ handler := by
        intro vector other hentry
        rw [HandlerEvent.apply, handlers_destroy h] at hentry
        split at hentry
        · contradiction
        · rename_i hne
          exact ⟨hentry, by rintro rfl; exact hne hentry⟩
      refine ⟨h.nodup.erase handler, ?_, ?_⟩
      · intro vector other hentry
        obtain ⟨hentry, hne⟩ := hkept vector other hentry
        exact (List.mem_erase_of_ne hne).mpr (h.live vector other hentry)
      · intro vector other hentry
        obtain ⟨hentry, -⟩ := hkept vector other hentry
        rw [HandlerEvent.apply, interrupt_destroy]
        exact h.interrupt vector other hentry

end Steps

/-! ## Runs -/

section Runs

variable {events : List HandlerEvent} {event : HandlerEvent} {vector : Byte} {handler : Pointer}

theorem runHandlers_snoc (events : List HandlerEvent) (event : HandlerEvent) :
    runHandlers (events ++ [event]) = event.apply (runHandlers events) :=
  List.foldl_append

theorem liveHandlers_snoc (events : List HandlerEvent) (event : HandlerEvent) :
    liveHandlers (events ++ [event]) = event.live (liveHandlers events) :=
  List.foldl_append

theorem properFrom_snoc {before : List Pointer} : ProperFrom before (events ++ [event]) ↔
    ProperFrom before events ∧ event.Proper (events.foldl HandlerEvent.live before) := by
  induction events generalizing before with
  | nil => simp [ProperFrom]
  | cons first events ih => rw [List.cons_append, ProperFrom, ih, ProperFrom, and_assoc]; rfl

theorem tableInv_run (h : ProperRun events) :
    TableInv (runHandlers events) (liveHandlers events) := by
  induction events using List.reverseRecOn with
  | nil => exact ⟨List.nodup_nil, fun _ _ hentry => by contradiction,
      fun _ _ hentry => by contradiction⟩
  | append_singleton events event ih =>
      obtain ⟨hearlier, hlast⟩ := properFrom_snoc.mp h
      rw [runHandlers_snoc, liveHandlers_snoc]
      exact (ih hearlier).apply hlast

/-- The handler is the last one constructed for the vector and was not destroyed since. -/
def Installed (events : List HandlerEvent) (vector : Byte) (handler : Pointer) : Prop :=
  ∃ earlier later, events = earlier ++ HandlerEvent.construct handler vector :: later ∧
    (∀ other, HandlerEvent.construct other vector ∉ later) ∧ HandlerEvent.destroy handler ∉ later

theorem installed_snoc : Installed (events ++ [event]) vector handler ↔
    event = HandlerEvent.construct handler vector ∨
      (Installed events vector handler ∧ (∀ other, event ≠ HandlerEvent.construct other vector) ∧
        event ≠ HandlerEvent.destroy handler) := by
  constructor
  · rintro ⟨earlier, later, heq, hlast, hkept⟩
    rcases List.eq_nil_or_concat later with rfl | ⟨front, last, rfl⟩
    · left
      exact (List.append_inj_right' heq rfl |> List.singleton_inj.mp)
    · right
      rw [List.concat_eq_append, ← List.cons_append, ← List.append_assoc] at heq
      obtain ⟨hfront, hevent⟩ := List.append_inj' heq rfl
      rw [List.singleton_inj] at hevent
      subst hevent
      rw [List.concat_eq_append] at hlast hkept
      refine ⟨⟨earlier, front, hfront, fun other hmem => ?_, fun hmem => ?_⟩,
        fun other hsame => ?_, fun hsame => ?_⟩
      · exact hlast other (List.mem_append_left _ hmem)
      · exact hkept (List.mem_append_left _ hmem)
      · exact hlast other (by simp [hsame])
      · exact hkept (by simp [hsame])
  · rintro (rfl | ⟨⟨earlier, later, rfl, hlast, hkept⟩, hconstruct, hdestroy⟩)
    · exact ⟨events, [], rfl, fun _ => List.not_mem_nil, List.not_mem_nil⟩
    · refine ⟨earlier, later ++ [event], by simp, fun other hmem => ?_, fun hmem => ?_⟩
      · rcases List.mem_append.mp hmem with hmem | hmem
        · exact hlast other hmem
        · exact hconstruct other (List.mem_singleton.mp hmem).symm
      · rcases List.mem_append.mp hmem with hmem | hmem
        · exact hkept hmem
        · exact hdestroy (List.mem_singleton.mp hmem).symm

theorem handlers_eq_iff_installed (h : ProperRun events) :
    (runHandlers events).handlers vector = some handler ↔ Installed events vector handler := by
  induction events using List.reverseRecOn with
  | nil =>
      constructor
      · intro hentry
        contradiction
      · rintro ⟨earlier, later, heq, -⟩
        simp at heq
  | append_singleton events event ih =>
      obtain ⟨hearlier, -⟩ := properFrom_snoc.mp h
      rw [runHandlers_snoc, installed_snoc, ← ih hearlier]
      cases event with
      | construct other interruptNumber =>
          rw [HandlerEvent.apply, handlers_construct]
          by_cases hvector : vector = interruptNumber
          · subst hvector
            simp
          · simp [hvector, Ne.symm hvector]
      | destroy other =>
          rw [HandlerEvent.apply, handlers_destroy (tableInv_run hearlier)]
          by_cases hentry : (runHandlers events).handlers vector = some other
          · rw [if_pos hentry, hentry]
            simp
          · rw [if_neg hentry]
            constructor
            · intro hhandler
              refine .inr ⟨hhandler, by simp, ?_⟩
              rintro ⟨⟩
              exact hentry hhandler
            · rintro (hsame | ⟨hhandler, -⟩)
              · contradiction
              · exact hhandler

/--
In every run an entry of the table holds exactly the handler constructed last for
its vector, as long as that one is not destroyed; whatever it holds is in memory
and was constructed for this vector.  Destroying a handler that was replaced
changes nothing.
-/
theorem handlers_of_run (h : ProperRun events) (vector : Byte) (handler : Pointer) :
    ((runHandlers events).handlers vector = some handler ↔ Installed events vector handler) ∧
      ((runHandlers events).handlers vector = some handler →
        handler ∈ liveHandlers events ∧ (runHandlers events).interrupt handler = vector) ∧
      (¬ Installed events ((runHandlers events).interrupt handler) handler →
        (runHandlers (events ++ [.destroy handler])).handlers = (runHandlers events).handlers) := by
  have hinv := tableInv_run h
  refine ⟨handlers_eq_iff_installed h, fun hentry => ?_, fun hreplaced => ?_⟩
  · exact ⟨hinv.live vector handler hentry, hinv.interrupt vector handler hentry⟩
  · rw [runHandlers_snoc, HandlerEvent.apply, InterruptManager.destroy, if_neg]
    exact fun hentry => hreplaced ((handlers_eq_iff_installed h).mp hentry)

def replaced : List HandlerEvent := [.construct 0x5000 0x20, .construct 0x6000 0x20]

theorem handlers_of_run_replaced :
    (runHandlers (replaced ++ [.destroy 0x5000])).handlers = (runHandlers replaced).handlers := by
  have hproper : ProperRun replaced := by
    simp [replaced, ProperFrom, HandlerEvent.Proper, HandlerEvent.live]
  apply (handlers_of_run hproper 0x20 0x5000).2.2
  rw [← handlers_eq_iff_installed hproper]
  decide

end Runs

end UnifiedOS.Interrupts
