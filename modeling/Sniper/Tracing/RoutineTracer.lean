import Sniper.Lib.Nesting
import Sniper.Lib.Prefixes

/-! # The routine tracer

`RoutineTracerThread` keeps the call stack of a thread and, in the region of interest, tells a
tool which routines are entered and left. What a tool does in its callbacks is left out.
-/
namespace Sniper.Tracing.Routine
open Lib.Nesting Lib.Prefixes

inductive Callback where
  | functionEnter (eip callEip : UInt64)
  | functionExit (eip : UInt64)
  | functionChildEnter (eip eip_child : UInt64)
  | functionChildExit (eip eip_child : UInt64)
  deriving DecidableEq

/-- The back of the stack is the head of the list. `inROI` is the magic server's, and `callbacks`
are those that were made so far. -/
structure RoutineTracerThread where
  m_stack : List UInt64
  m_last_esp : UInt64
  inROI : Bool
  callbacks : List Callback

namespace RoutineTracerThread
variable (s : RoutineTracerThread)

/-- A thread that starts inside or outside of the region; `esp` is what the last stack pointer
happens to be. -/
def create (inROI : Bool) (esp : UInt64) : RoutineTracerThread := ⟨[], esp, inROI, []⟩

def call (callback : Callback) : RoutineTracerThread :=
  { s with callbacks := s.callbacks ++ [callback] }

def callInROI (callback : Callback) : RoutineTracerThread :=
  if s.inROI then s.call callback else s

def routineEnter (eip esp callEip : UInt64) : RoutineTracerThread :=
  let s := match s.m_stack with
    | [] => s
    | back :: _ => s.callInROI (.functionChildEnter back eip)
  let s := { s with m_stack := eip :: s.m_stack, m_last_esp := esp }
  s.callInROI (.functionEnter eip callEip)

/-- The loop of `unwindTo`, with the stack that is left. It stops at `eip`, which is there. -/
def unwindLoop (eip : UInt64) (s : RoutineTracerThread) : List UInt64 → RoutineTracerThread
  | [] => s
  | back :: rest =>
    if back = eip then s
    else
      let s := s.callInROI (.functionExit back)
      let s := { s with m_stack := rest }
      let s := match rest with
        | [] => s
        | next :: _ => s.callInROI (.functionChildExit next eip)
      unwindLoop eip s rest

def unwindTo (eip : UInt64) : Bool × RoutineTracerThread :=
  if eip ∈ s.m_stack then (true, unwindLoop eip s s.m_stack) else (false, s)

def routineExit (eip esp : UInt64) : RoutineTracerThread :=
  match s.m_stack with
  | [] => s
  | back :: _ =>
    let (found, s) := if back ≠ eip then s.unwindTo eip else (true, s)
    let s := if found then
        let s := s.callInROI (.functionExit eip)
        { s with m_stack := s.m_stack.tail }
      else s
    let s := { s with m_last_esp := esp }
    match s.m_stack with
    | [] => s
    | back :: _ => s.callInROI (.functionChildExit back eip)

/-- The assertion at the end gives `none`. -/
def routineAssert (eip esp : UInt64) : Option RoutineTracerThread :=
  match s.m_stack with
  | [] => some (s.routineEnter eip esp 0)
  | back :: _ =>
    if back = eip then some s
    else if esp ≤ s.m_last_esp then some (s.routineEnter eip esp 0)
    else
      let (found, s) := s.unwindTo eip
      let s := if found then { s with m_last_esp := esp } else s.routineEnter eip esp 0
      if s.m_stack.head? = some eip then some s else none

/-- The frames from the bottom on. -/
def roiBeginLoop (s : RoutineTracerThread) (eip_parent : UInt64) :
    List UInt64 → RoutineTracerThread
  | [] => s
  | eip :: frames =>
    let s := if eip_parent ≠ 0 then s.call (.functionChildEnter eip_parent eip) else s
    roiBeginLoop (s.call (.functionEnter eip 0)) eip frames

def hookRoiBegin : RoutineTracerThread := roiBeginLoop s 0 s.m_stack.reverse

/-- The first loop, which takes the frames from the stack and saves them. -/
def roiEndLoop (s : RoutineTracerThread) (eip_child : UInt64) (stack_save : List UInt64) :
    List UInt64 → RoutineTracerThread × List UInt64
  | [] => ({ s with m_stack := [] }, stack_save)
  | back :: rest =>
    let s := if eip_child ≠ 0 then s.call (.functionChildExit back eip_child) else s
    let s := s.call (.functionExit back)
    roiEndLoop { s with m_stack := rest } back (back :: stack_save) rest

def hookRoiEnd : RoutineTracerThread :=
  let (s, stack_save) := roiEndLoop s 0 [] s.m_stack
  { s with m_stack := stack_save.foldl (fun stack eip => eip :: stack) s.m_stack }

/-- `MagicServer::setPerformance`; the hooks are called when the region begins or ends. -/
def setPerformance (enabled : Bool) : RoutineTracerThread :=
  if s.inROI = enabled then s
  else
    let s := { s with inROI := enabled }
    if enabled then s.hookRoiBegin else s.hookRoiEnd

end RoutineTracerThread

inductive Event where
  | enter (eip esp callEip : UInt64)
  | exit (eip esp : UInt64)
  | assert (eip esp : UInt64)
  | roi (enabled : Bool)

def RoutineTracerThread.step (s : RoutineTracerThread) : Event → Option RoutineTracerThread
  | .enter eip esp callEip => some (s.routineEnter eip esp callEip)
  | .exit eip esp => some (s.routineExit eip esp)
  | .assert eip esp => s.routineAssert eip esp
  | .roi enabled => some (s.setPerformance enabled)

def run (s : RoutineTracerThread) (events : List Event) : Option RoutineTracerThread :=
  events.foldlM RoutineTracerThread.step s

/-! ## The brackets of the callbacks -/

inductive Bracket where
  | routine (eip : UInt64)
  | child (eip eip_child : UInt64)
  deriving DecidableEq

def Callback.token : Callback → Token Bracket
  | .functionEnter eip _ => .opens (.routine eip)
  | .functionExit eip => .closes (.routine eip)
  | .functionChildEnter eip eip_child => .opens (.child eip eip_child)
  | .functionChildExit eip eip_child => .closes (.child eip eip_child)

/-- What is open with these frames on the stack. -/
def opened : List UInt64 → List Bracket
  | [] => []
  | [eip] => [.routine eip]
  | eip :: parent :: rest => .routine eip :: .child parent eip :: opened (parent :: rest)

/-- What is open below a frame with these frames below it. -/
def below (eip : UInt64) : List UInt64 → List Bracket
  | [] => []
  | parent :: rest => .child parent eip :: opened (parent :: rest)

theorem opened_cons (eip : UInt64) (stack : List UInt64) :
    opened (eip :: stack) = .routine eip :: below eip stack := by
  cases stack with
  | nil | cons parent rest => rfl

namespace RoutineTracerThread

def trace (s : RoutineTracerThread) : List (Token Bracket) := s.callbacks.map Callback.token

/-- In the region the open brackets are those of the stack, and outside there are none. -/
def Sound (s : RoutineTracerThread) : Prop :=
  nesting s.trace = some (if s.inROI then opened s.m_stack else [])

variable {s : RoutineTracerThread} {eip esp callEip : UInt64} {stack : List UInt64} {b : Bracket}
  {brackets : List Bracket} {callback : Callback}

@[simp] theorem callInROI_m_stack (s : RoutineTracerThread) (callback : Callback) :
    (s.callInROI callback).m_stack = s.m_stack := by
  unfold callInROI
  split <;> rfl

@[simp] theorem callInROI_inROI (s : RoutineTracerThread) (callback : Callback) :
    (s.callInROI callback).inROI = s.inROI := by
  unfold callInROI
  split <;> rfl

theorem trace_callInROI (hroi : s.inROI = false) (callback : Callback) :
    (s.callInROI callback).trace = s.trace := by
  unfold callInROI
  rw [if_neg (Bool.eq_false_iff.mp hroi)]

theorem trace_call (s : RoutineTracerThread) (callback : Callback) :
    (s.call callback).trace = s.trace ++ [callback.token] := List.map_append

theorem call_opens (h : nesting s.trace = some brackets) (htoken : callback.token = .opens b) :
    nesting (s.call callback).trace = some (b :: brackets) := by
  rw [trace_call, nesting_append h, htoken, reads_opens, reads_nil]

theorem call_closes (h : nesting s.trace = some (b :: brackets))
    (htoken : callback.token = .closes b) : nesting (s.call callback).trace = some brackets := by
  rw [trace_call, nesting_append h, htoken, reads_closes, reads_nil]

theorem callInROI_opens (hroi : s.inROI = true) (h : nesting s.trace = some brackets)
    (htoken : callback.token = .opens b) :
    nesting (s.callInROI callback).trace = some (b :: brackets) := by
  unfold callInROI
  rw [if_pos hroi]
  exact call_opens h htoken

theorem callInROI_closes (hroi : s.inROI = true) (h : nesting s.trace = some (b :: brackets))
    (htoken : callback.token = .closes b) :
    nesting (s.callInROI callback).trace = some brackets := by
  unfold callInROI
  rw [if_pos hroi]
  exact call_closes h htoken

theorem sound_of_inROI (hroi : s.inROI = true) :
    s.Sound ↔ nesting s.trace = some (opened s.m_stack) := by
  unfold Sound
  rw [if_pos hroi]

theorem sound_of_not_inROI (hroi : s.inROI = false) : s.Sound ↔ nesting s.trace = some [] := by
  unfold Sound
  rw [if_neg (Bool.eq_false_iff.mp hroi)]

/-! ## Entering and leaving -/

@[simp] theorem routineEnter_m_stack (s : RoutineTracerThread) (eip esp callEip : UInt64) :
    (s.routineEnter eip esp callEip).m_stack = eip :: s.m_stack := by
  unfold routineEnter
  rw [callInROI_m_stack]
  split
  · rfl
  · rw [callInROI_m_stack]

@[simp] theorem routineEnter_inROI (s : RoutineTracerThread) (eip esp callEip : UInt64) :
    (s.routineEnter eip esp callEip).inROI = s.inROI := by
  unfold routineEnter
  rw [callInROI_inROI]
  split
  · rfl
  · exact callInROI_inROI s _

theorem Sound.routineEnter (h : s.Sound) (eip esp callEip : UInt64) :
    (s.routineEnter eip esp callEip).Sound := by
  have hinROI := routineEnter_inROI s eip esp callEip
  have hstack' := routineEnter_m_stack s eip esp callEip
  cases hroi : s.inROI with
  | false =>
    rw [sound_of_not_inROI (hinROI.trans hroi)]
    rw [sound_of_not_inROI hroi] at h
    unfold RoutineTracerThread.routineEnter
    split
    · rw [trace_callInROI (by exact hroi)]
      exact h
    · rw [trace_callInROI (by exact (callInROI_inROI s _).trans hroi)]
      exact (congrArg nesting (trace_callInROI hroi _)).trans h
  | true =>
    rw [sound_of_inROI (hinROI.trans hroi), hstack', opened_cons]
    rw [sound_of_inROI hroi] at h
    unfold RoutineTracerThread.routineEnter
    split
    case h_1 hstack =>
      rw [hstack] at h ⊢
      exact callInROI_opens hroi h rfl
    case h_2 back rest hstack =>
      rw [hstack] at h ⊢
      refine callInROI_opens ?_ (callInROI_opens hroi h rfl) rfl
      exact (callInROI_inROI s _).trans hroi

/-! ## Unwinding -/

theorem unwindLoop_spec (eip : UInt64) (stack : List UInt64) (s : RoutineTracerThread)
    (hstack : s.m_stack = stack) (hmem : eip ∈ stack) :
    (unwindLoop eip s stack).m_stack.head? = some eip ∧
      (unwindLoop eip s stack).inROI = s.inROI ∧
      (s.inROI = false → (unwindLoop eip s stack).trace = s.trace) := by
  induction stack generalizing s with
  | nil => cases hmem
  | cons back rest ih =>
    unfold unwindLoop
    split
    case isTrue heq => exact ⟨by rw [hstack, heq]; rfl, rfl, fun _ => rfl⟩
    case isFalse hne =>
      have hrest : eip ∈ rest := (List.mem_cons.mp hmem).resolve_left (Ne.symm hne)
      cases rest with
      | nil => cases hrest
      | cons next rest =>
        obtain ⟨hhead, hroi, htrace⟩ := ih
          (({ s.callInROI (.functionExit back) with m_stack := next :: rest } :
            RoutineTracerThread).callInROI (.functionChildExit next eip))
          (callInROI_m_stack _ _) hrest
        have hkept : (({ s.callInROI (.functionExit back) with m_stack := next :: rest } :
            RoutineTracerThread).callInROI (.functionChildExit next eip)).inROI = s.inROI :=
          (callInROI_inROI _ _).trans (callInROI_inROI s _)
        refine ⟨hhead, hroi.trans hkept, fun hout => (htrace (hkept.trans hout)).trans ?_⟩
        rw [trace_callInROI (by exact (callInROI_inROI s _).trans hout)]
        exact trace_callInROI hout _

theorem unwindTo_of_mem (h : eip ∈ s.m_stack) :
    s.unwindTo eip = (true, unwindLoop eip s s.m_stack) := if_pos h

theorem unwindTo_of_not_mem (h : eip ∉ s.m_stack) : s.unwindTo eip = (false, s) := if_neg h

theorem routineAssert_top (s : RoutineTracerThread) (eip esp : UInt64) :
    ∃ t, s.routineAssert eip esp = some t ∧ t.m_stack.head? = some eip ∧ t.inROI = s.inROI ∧
      (s.inROI = false → s.Sound → t.Sound) := by
  have henter : (s.routineEnter eip esp 0).m_stack.head? = some eip := by
    rw [routineEnter_m_stack]
    rfl
  unfold routineAssert
  split
  case h_1 =>
    exact ⟨_, rfl, henter, routineEnter_inROI .., fun _ h => h.routineEnter eip esp 0⟩
  case h_2 back rest hstack =>
    split
    case isTrue heq => exact ⟨s, rfl, by rw [hstack, heq]; rfl, rfl, fun _ h => h⟩
    case isFalse hne =>
      split
      case isTrue =>
        exact ⟨_, rfl, henter, routineEnter_inROI .., fun _ h => h.routineEnter eip esp 0⟩
      case isFalse =>
        by_cases hmem : eip ∈ s.m_stack
        case pos =>
          obtain ⟨hhead, hroi, htrace⟩ := unwindLoop_spec eip s.m_stack s rfl hmem
          rw [unwindTo_of_mem hmem]
          dsimp only
          rw [if_pos rfl, if_pos hhead]
          refine ⟨_, rfl, hhead, hroi, fun hout h => ?_⟩
          rw [sound_of_not_inROI hout] at h
          exact (sound_of_not_inROI (hroi.trans hout)).mpr ((congrArg nesting (htrace hout)).trans h)
        case neg =>
          rw [unwindTo_of_not_mem hmem]
          dsimp only
          rw [if_neg Bool.false_ne_true, if_pos henter]
          exact ⟨_, rfl, henter, routineEnter_inROI .., fun _ h => h.routineEnter eip esp 0⟩

/-- What an event may meet. In the region, an exit leaves the last routine, and an assertion does
not go back to a routine below; where the region begins or ends, no frame with another one to open
or to close has the number 0. -/
def Careful (s : RoutineTracerThread) : Event → Prop
  | .enter .. => True
  | .exit eip _ => s.inROI = true → ∀ back ∈ s.m_stack.head?, back = eip
  | .assert eip esp => s.inROI = true → eip ∈ s.m_stack →
      s.m_stack.head? = some eip ∨ esp ≤ s.m_last_esp
  | .roi enabled =>
    if enabled then s.inROI = false → ∀ eip ∈ s.m_stack.tail, eip ≠ 0
    else s.inROI = true → ∀ eip ∈ s.m_stack.dropLast, eip ≠ 0

theorem Sound.routineExit (h : s.Sound) (eip esp : UInt64) (hcareful : s.Careful (.exit eip esp)) :
    (s.routineExit eip esp).Sound := by
  unfold RoutineTracerThread.routineExit
  split
  case h_1 => exact h
  case h_2 back rest hstack =>
    cases hroi : s.inROI with
    | true =>
      obtain rfl : back = eip := hcareful hroi back (by rw [hstack]; rfl)
      rw [sound_of_inROI hroi, hstack, opened_cons] at h
      have hexit : nesting (s.callInROI (.functionExit back)).trace = some (below back rest) :=
        callInROI_closes hroi h rfl
      have hroi' := (callInROI_inROI s (.functionExit back)).trans hroi
      have hrest : (s.callInROI (.functionExit back)).m_stack.tail = rest := by
        rw [callInROI_m_stack, hstack, List.tail_cons]
      rw [if_neg fun hne => hne rfl]
      dsimp only
      rw [if_pos rfl]
      rw [hrest]
      cases rest with
      | nil =>
        rw [sound_of_inROI (by exact hroi')]
        exact hexit
      | cons next rest =>
        rw [sound_of_inROI (by exact (callInROI_inROI _ _).trans hroi'), callInROI_m_stack]
        exact callInROI_closes hroi' hexit rfl
    | false =>
      rw [sound_of_not_inROI hroi] at h
      obtain ⟨found, t, hunwind, hroi', htrace⟩ : ∃ found t,
          (if back ≠ eip then s.unwindTo eip else (true, s)) = (found, t) ∧ t.inROI = false ∧
            nesting t.trace = some [] := by
        by_cases hback : back = eip
        · exact ⟨true, s, if_neg fun hne => hne hback, hroi, h⟩
        · rw [if_pos hback]
          by_cases hmem : eip ∈ s.m_stack
          · obtain ⟨_, hkept, hsilent⟩ := unwindLoop_spec eip s.m_stack s rfl hmem
            exact ⟨true, _, unwindTo_of_mem hmem, hkept.trans hroi,
              (congrArg nesting (hsilent hroi)).trans h⟩
          · exact ⟨false, s, unwindTo_of_not_mem hmem, hroi, h⟩
      rw [hunwind]
      dsimp only
      obtain ⟨u, hu, hroi', htrace⟩ : ∃ u, (if found = true then
            { t.callInROI (.functionExit eip) with
              m_stack := (t.callInROI (.functionExit eip)).m_stack.tail }
          else t) = u ∧ u.inROI = false ∧ nesting u.trace = some [] := by
        refine ⟨_, rfl, ?_⟩
        split
        · exact ⟨(callInROI_inROI t _).trans hroi',
            (congrArg nesting (trace_callInROI hroi' _)).trans htrace⟩
        · exact ⟨hroi', htrace⟩
      rw [hu]
      split
      · rw [sound_of_not_inROI (by exact hroi')]
        exact htrace
      · rw [sound_of_not_inROI (by exact (callInROI_inROI _ _).trans hroi'),
          trace_callInROI (by exact hroi')]
        exact htrace

theorem Sound.routineAssert (h : s.Sound) (eip esp : UInt64)
    (hcareful : s.Careful (.assert eip esp)) {t} (ht : s.routineAssert eip esp = some t) :
    t.Sound := by
  cases hroi : s.inROI with
  | false =>
    obtain ⟨u, hu, _, _, hsound⟩ := routineAssert_top s eip esp
    rw [ht] at hu
    cases hu
    exact hsound hroi h
  | true =>
    have hcareful := hcareful hroi
    unfold RoutineTracerThread.routineAssert at ht
    split at ht
    case h_1 =>
      cases ht
      exact h.routineEnter eip esp 0
    case h_2 back rest hstack =>
      split at ht
      case isTrue =>
        cases ht
        exact h
      case isFalse hne =>
        split at ht
        case isTrue =>
          cases ht
          exact h.routineEnter eip esp 0
        case isFalse hesp =>
          have hmem : eip ∉ s.m_stack := fun hmem => by
            rcases hcareful hmem with htop | hle
            · rw [hstack] at htop
              exact hne (Option.some.inj htop)
            · exact hesp hle
          rw [unwindTo_of_not_mem hmem] at ht
          dsimp only at ht
          rw [if_neg Bool.false_ne_true] at ht
          split at ht
          · cases ht
            exact h.routineEnter eip esp 0
          · cases ht

/-! ## The region -/

theorem roiBeginLoop_spec (frames : List UInt64) (s : RoutineTracerThread) (done : List UInt64)
    (h : nesting s.trace = some (opened done))
    (hzero : ∀ eip ∈ (frames.reverse ++ done).tail, eip ≠ 0) :
    nesting (roiBeginLoop s (done.headD 0) frames).trace = some (opened (frames.reverse ++ done)) ∧
      (roiBeginLoop s (done.headD 0) frames).inROI = s.inROI ∧
      (roiBeginLoop s (done.headD 0) frames).m_stack = s.m_stack := by
  induction frames generalizing s done with
  | nil => exact ⟨h, rfl, rfl⟩
  | cons eip frames ih =>
    rw [List.reverse_cons, List.append_assoc, List.singleton_append] at hzero ⊢
    cases done with
    | nil => exact ih _ [eip] (call_opens h rfl) hzero
    | cons parent done =>
      have hparent : parent ≠ 0 := by
        refine hzero parent ?_
        cases hframes : frames.reverse with
        | nil => exact List.mem_cons_self
        | cons top front =>
          exact List.mem_append_right front (List.mem_cons_of_mem _ List.mem_cons_self)
      unfold roiBeginLoop
      rw [if_pos (by exact hparent)]
      exact ih _ (eip :: parent :: done) (call_opens (call_opens h rfl) rfl) hzero

theorem roiEndLoop_spec (stack : List UInt64) (s : RoutineTracerThread) (eip_child : UInt64)
    (stack_save : List UInt64) :
    (roiEndLoop s eip_child stack_save stack).2 = stack.reverse ++ stack_save ∧
      (roiEndLoop s eip_child stack_save stack).1.m_stack = [] ∧
      (roiEndLoop s eip_child stack_save stack).1.inROI = s.inROI := by
  induction stack generalizing s eip_child stack_save with
  | nil => exact ⟨rfl, rfl, rfl⟩
  | cons back rest ih =>
    obtain ⟨hsave, hstack, hroi⟩ := ih _ back (back :: stack_save)
    rw [List.reverse_cons, List.append_assoc]
    refine ⟨hsave, hstack, hroi.trans ?_⟩
    split <;> rfl

theorem roiEndLoop_closes (stack : List UInt64) (s : RoutineTracerThread) (eip_child : UInt64)
    (stack_save : List UInt64) (h : nesting s.trace = some (below eip_child stack))
    (hchild : stack ≠ [] → eip_child ≠ 0) (hzero : ∀ eip ∈ stack.dropLast, eip ≠ 0) :
    nesting (roiEndLoop s eip_child stack_save stack).1.trace = some [] := by
  induction stack generalizing s eip_child stack_save with
  | nil => exact h
  | cons back rest ih =>
    unfold roiEndLoop
    rw [if_pos (hchild (List.cons_ne_nil _ _))]
    have hclosed : nesting (s.call (.functionChildExit back eip_child)).trace =
        some (.routine back :: below back rest) := by
      rw [← opened_cons]
      exact call_closes h rfl
    refine ih _ back _ (call_closes hclosed rfl) (fun hrest => ?_) fun eip hmem => ?_
    · refine hzero back ?_
      rw [List.dropLast_cons_of_ne_nil hrest]
      exact List.mem_cons_self
    · cases rest with
      | nil => cases hmem
      | cons next rest => exact hzero eip (List.mem_cons_of_mem _ hmem)

theorem hookRoiEnd_m_stack (s : RoutineTracerThread) : s.hookRoiEnd.m_stack = s.m_stack := by
  obtain ⟨hsave, hempty, _⟩ := roiEndLoop_spec s.m_stack s 0 []
  unfold hookRoiEnd
  dsimp only
  rw [hsave, hempty, List.append_nil, List.foldl_flip_cons_eq_append', List.reverse_reverse,
    List.append_nil]

theorem hookRoiEnd_closes (h : nesting s.trace = some (opened s.m_stack))
    (hzero : ∀ eip ∈ s.m_stack.dropLast, eip ≠ 0) : nesting s.hookRoiEnd.trace = some [] := by
  change nesting (roiEndLoop s 0 [] s.m_stack).1.trace = some []
  cases hstack : s.m_stack with
  | nil =>
    rw [hstack] at h
    exact h
  | cons back rest =>
    rw [hstack, opened_cons] at h
    rw [hstack] at hzero
    refine roiEndLoop_closes rest _ back _ (call_closes h rfl) (fun hrest => ?_) fun eip hmem => ?_
    · refine hzero back ?_
      rw [List.dropLast_cons_of_ne_nil hrest]
      exact List.mem_cons_self
    · cases rest with
      | nil => cases hmem
      | cons next rest => exact hzero eip (List.mem_cons_of_mem _ hmem)

theorem Sound.setPerformance (h : s.Sound) (enabled : Bool) (hcareful : s.Careful (.roi enabled)) :
    (s.setPerformance enabled).Sound := by
  unfold RoutineTracerThread.setPerformance
  split
  case isTrue => exact h
  case isFalse hne =>
    cases enabled with
    | true =>
      have hroi := Bool.eq_false_iff.mpr hne
      rw [sound_of_not_inROI hroi] at h
      have hzero : ∀ eip ∈ (s.m_stack.reverse.reverse ++ []).tail, eip ≠ 0 := by
        rw [List.reverse_reverse, List.append_nil]
        exact hcareful hroi
      obtain ⟨hnesting, hinROI, hstack⟩ :=
        roiBeginLoop_spec s.m_stack.reverse { s with inROI := true } [] h hzero
      rw [List.reverse_reverse, List.append_nil] at hnesting
      refine (sound_of_inROI hinROI).mpr ?_
      exact hnesting.trans (by rw [hstack])
    | false =>
      have hroi := Bool.not_eq_false _ |>.mp hne
      rw [sound_of_inROI hroi] at h
      refine (sound_of_not_inROI ?_).mpr (hookRoiEnd_closes h (hcareful hroi))
      exact (roiEndLoop_spec s.m_stack { s with inROI := false } 0 []).2.2

end RoutineTracerThread

/-! ## Runs -/

/-- Each event of the run is careful. -/
def CarefulRun (s : RoutineTracerThread) (events : List Event) : Prop :=
  ∀ before event, before ++ [event] <+: events → ∀ t, run s before = some t → t.Careful event

theorem step_sound {s : RoutineTracerThread} (h : s.Sound) {event} (hcareful : s.Careful event) :
    ∃ t, s.step event = some t ∧ t.Sound := by
  cases event with
  | enter eip esp callEip => exact ⟨_, rfl, h.routineEnter eip esp callEip⟩
  | exit eip esp => exact ⟨_, rfl, h.routineExit eip esp hcareful⟩
  | assert eip esp =>
    obtain ⟨t, ht, _⟩ := s.routineAssert_top eip esp
    exact ⟨t, ht, h.routineAssert eip esp hcareful ht⟩
  | roi enabled => exact ⟨_, rfl, h.setPerformance enabled hcareful⟩

theorem run_sound {s : RoutineTracerThread} (h : s.Sound) (events : List Event)
    (hcareful : CarefulRun s events) :
    ∀ before, before <+: events → ∃ t, run s before = some t ∧ t.Sound := by
  intro before
  induction before using List.reverseRecOn with
  | nil => exact fun _ => ⟨s, rfl, h⟩
  | append_singleton before event ih =>
    intro hevents
    obtain ⟨t, hrun, hsound⟩ := ih (prefix_of_concat hevents)
    obtain ⟨u, hstep, hsound'⟩ := step_sound hsound (hcareful before event hevents t hrun)
    refine ⟨u, ?_, hsound'⟩
    unfold run at hrun ⊢
    rw [List.foldlM_append, hrun, Option.bind_eq_bind, Option.bind_some, List.foldlM_cons, hstep]
    rfl

/-- The callbacks of careful events nest; an assertion always leaves its routine on top, and the
end of the region leaves the stack as it was. -/
theorem callbacks_balanced (inROI : Bool) (esp : UInt64) (events : List Event)
    (hcareful : CarefulRun (.create inROI esp) events) :
    (∀ s : RoutineTracerThread, s.hookRoiEnd.m_stack = s.m_stack) ∧
    (∀ (s : RoutineTracerThread) (eip esp : UInt64),
      ∃ t, s.routineAssert eip esp = some t ∧ t.m_stack.head? = some eip) ∧
    ∀ before, before <+: events → ∃ s, run (.create inROI esp) before = some s ∧
      (s.inROI = true → nesting s.trace = some (opened s.m_stack)) ∧
      (s.inROI = false → Balanced s.trace) := by
  refine ⟨RoutineTracerThread.hookRoiEnd_m_stack, fun s eip esp => ?_, fun before hbefore => ?_⟩
  · obtain ⟨t, ht, htop, _⟩ := s.routineAssert_top eip esp
    exact ⟨t, ht, htop⟩
  · have hcreate : (RoutineTracerThread.create inROI esp).Sound := by
      cases inROI <;> rfl
    obtain ⟨s, hrun, hsound⟩ := run_sound hcreate events hcareful before hbefore
    refine ⟨s, hrun, fun hroi => ?_, fun hroi => ?_⟩
    · exact (RoutineTracerThread.sound_of_inROI hroi).mp hsound
    · exact nesting_eq_nil_iff.mp ((RoutineTracerThread.sound_of_not_inROI hroi).mp hsound)

theorem CarefulRun.nil (s : RoutineTracerThread) : CarefulRun s [] :=
  fun _ _ h => absurd (List.prefix_nil.mp h) (by simp)

theorem CarefulRun.cons {s t : RoutineTracerThread} {event events} (hcareful : s.Careful event)
    (hstep : s.step event = some t) (h : CarefulRun t events) : CarefulRun s (event :: events) := by
  intro before last hprefix u hrun
  cases before with
  | nil =>
    obtain rfl := (List.cons_prefix_cons.mp hprefix).1
    cases hrun
    exact hcareful
  | cons first before =>
    obtain ⟨rfl, hrest⟩ := List.cons_prefix_cons.mp hprefix
    rw [run, List.foldlM_cons, hstep] at hrun
    exact h before last hrest u hrun

/-- A routine calls another one, and the region ends before it returns. -/
theorem callbacks_balanced_nested :
    ∃ s, run (.create false 0) [.roi true, .enter 1 9 0, .enter 2 8 0, .exit 2 8, .roi false] =
      some s ∧ s.m_stack = [1] ∧ s.callbacks.length = 6 ∧ Balanced s.trace := by
  have hcareful : CarefulRun (.create false 0)
      [.roi true, .enter 1 9 0, .enter 2 8 0, .exit 2 8, .roi false] := by
    refine .cons (fun _ eip hmem => by cases hmem) rfl (.cons trivial rfl (.cons trivial rfl ?_))
    refine .cons (fun _ back hmem => (Option.some.inj hmem).symm) rfl (.cons ?_ rfl (.nil _))
    exact fun _ eip hmem => by cases hmem
  obtain ⟨_, _, hbefore⟩ := callbacks_balanced false 0 _ hcareful
  obtain ⟨s, hrun, _, hbalanced⟩ := hbefore _ (List.prefix_refl _)
  cases hrun
  exact ⟨_, rfl, rfl, rfl, hbalanced rfl⟩

/-- Routine 1 is left below routine 2, which leaves the wrong child. -/
theorem unwinding_unbalanced :
    (run (.create false 0) [.roi true, .enter 1 9 0, .enter 2 8 0, .exit 1 9, .roi false]).map
        RoutineTracerThread.callbacks =
      some [.functionEnter 1 0, .functionChildEnter 1 2, .functionEnter 2 0, .functionExit 2,
        .functionChildExit 1 1, .functionExit 1] ∧
    ∀ s, run (.create false 0) [.roi true, .enter 1 9 0, .enter 2 8 0, .exit 1 9, .roi false] =
      some s → ¬ Balanced s.trace := by
  refine ⟨by decide +kernel, fun s hrun hbalanced => ?_⟩
  rw [← nesting_eq_nil_iff] at hbalanced
  have hnesting : (run (.create false 0)
      [.roi true, .enter 1 9 0, .enter 2 8 0, .exit 1 9, .roi false]).bind
        (fun s => nesting s.trace) = none := by decide +kernel
  rw [hrun, Option.bind_some, hbalanced] at hnesting
  cases hnesting

end Sniper.Tracing.Routine
