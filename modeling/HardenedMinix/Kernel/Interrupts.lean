import HardenedMinix.Lib.Runs

/-!
# Interrupt lines

The hooks of the interrupt lines, the active ids, and the line's bit in the controller
(`interrupt.c`). A hook is known by its address. `intr_init` leaves all lines of the 8259 masked
except the one of its slave; the pins of the IO APIC are all masked at first.
-/

open Function

namespace HardenedMinix.Kernel.Interrupts

open HardenedMinix.Lib

/-- The ids of the hooks of a line are bits of a C `int`. -/
abbrev Id := BitVec 32

/-- The legacy interrupt controller, or the IO APIC. -/
inductive Controller
  | i8259
  | ioApic
  deriving DecidableEq, Repr

def Controller.nrIrqVectors : Controller → Int
  | .i8259 => 16
  | .ioApic => 64

/-- The line at which the second 8259 is connected. -/
def cascadeIrq : Int := 2

/-- `irq_hook_t`, as far as the lines are concerned. -/
structure Hook where
  irq : Int
  id : Id
  deriving DecidableEq, Repr

variable {ι : Type}

structure State (ι : Type) where
  controller : Controller
  irqHandlers : Int → List ι
  hook : ι → Hook
  irqActids : Int → Id
  unmasked : Int → Bool
  panicked : Bool

/-- After `intr_init`, or with the IO APIC set up, and before the first hook. -/
def boot (c : Controller) : State ι where
  controller := c
  irqHandlers _ := []
  hook _ := ⟨0, 0⟩
  irqActids _ := 0
  unmasked irq := c = .i8259 && irq = cascadeIrq
  panicked := false

namespace State

/-- `irq < 0 || irq >= NR_IRQ_VECTORS`. -/
def Invalid (s : State ι) (irq : Int) : Prop := irq < 0 ∨ s.controller.nrIrqVectors ≤ irq

instance (s : State ι) (irq : Int) : Decidable (s.Invalid irq) :=
  instDecidableOr

def panic (s : State ι) : State ι := { s with panicked := true }

def hwIntrMask (s : State ι) (irq : Int) : State ι :=
  { s with unmasked := update s.unmasked irq false }

def hwIntrUnmask (s : State ι) (irq : Int) : State ι :=
  { s with unmasked := update s.unmasked irq true }

def setActids (s : State ι) (irq : Int) (ids : Id) : State ι :=
  { s with irqActids := update s.irqActids irq ids }

section

variable (s : State ι) (irq : Int) (ids : Id)

@[simp] theorem setActids_irqActids : (s.setActids irq ids).irqActids irq = ids := update_self ..
@[simp] theorem setActids_irqHandlers : (s.setActids irq ids).irqHandlers = s.irqHandlers := rfl
@[simp] theorem setActids_hook : (s.setActids irq ids).hook = s.hook := rfl
@[simp] theorem setActids_unmasked : (s.setActids irq ids).unmasked = s.unmasked := rfl

@[simp] theorem hwIntrMask_unmasked : (s.hwIntrMask irq).unmasked irq = false := update_self ..
@[simp] theorem hwIntrMask_irqHandlers : (s.hwIntrMask irq).irqHandlers = s.irqHandlers := rfl
@[simp] theorem hwIntrMask_hook : (s.hwIntrMask irq).hook = s.hook := rfl
@[simp] theorem hwIntrMask_irqActids : (s.hwIntrMask irq).irqActids = s.irqActids := rfl

@[simp] theorem hwIntrUnmask_unmasked : (s.hwIntrUnmask irq).unmasked irq = true := update_self ..
@[simp] theorem hwIntrUnmask_irqHandlers : (s.hwIntrUnmask irq).irqHandlers = s.irqHandlers := rfl
@[simp] theorem hwIntrUnmask_hook : (s.hwIntrUnmask irq).hook = s.hook := rfl
@[simp] theorem hwIntrUnmask_irqActids : (s.hwIntrUnmask irq).irqActids = s.irqActids := rfl

end

def bitmap (s : State ι) (irq : Int) : Id :=
  (s.irqHandlers irq).foldl (fun ids h => ids ||| (s.hook h).id) 0

variable [DecidableEq ι]

/-- `for (id = 1; id != 0; id <<= 1) if (!(bitmap & id)) break;` -/
def lowestId (bitmap : Id) : Option Id :=
  ((List.range 32).map (BitVec.twoPow 32)).find? fun id => bitmap &&& id = 0

/-- `irq_actids[hook->irq] &= ~hook->id`, and the line is opened if that leaves none. -/
def enableIrq (s : State ι) (h : ι) : State ι :=
  let irq := (s.hook h).irq
  let s := s.setActids irq (s.irqActids irq &&& ~~~(s.hook h).id)
  if s.irqActids irq = 0 then s.hwIntrUnmask irq else s

def putIrqHandler (s : State ι) (h : ι) (irq : Int) : State ι :=
  if s.Invalid irq then s.panic
  else if h ∈ s.irqHandlers irq then s -- extra initialization
  else
    match lowestId (s.bitmap irq) with
    | none => s.panic
    | some id =>
      let s := { s with
        hook := update s.hook h ⟨irq, id⟩
        irqHandlers := update s.irqHandlers irq (s.irqHandlers irq ++ [h]) }
      s.enableIrq h

/-- All hooks with the id are unlinked; the id is no longer active if there was one. -/
def unlink (s : State ι) (irq : Int) (id : Id) : State ι :=
  let line := s.irqHandlers irq
  let s := { s with
    irqHandlers := update s.irqHandlers irq (line.filter fun h => (s.hook h).id ≠ id) }
  if line.any fun h => (s.hook h).id = id then s.setActids irq (s.irqActids irq &&& ~~~id) else s

def rmIrqHandler (s : State ι) (h : ι) : State ι :=
  let irq := (s.hook h).irq
  if s.Invalid irq then s.panic
  else
    let s := s.unlink irq (s.hook h).id
    if s.irqHandlers irq = [] then s.hwIntrMask irq
    else if s.irqActids irq = 0 then s.hwIntrUnmask irq
    else s

/-- One turn of the loop of `irq_handle`; `ret` is what the handlers return. -/
def callHandler (irq : Int) (ret : ι → Bool) (s : State ι) (h : ι) : State ι :=
  let s := s.setActids irq (s.irqActids irq ||| (s.hook h).id)
  let irq' := (s.hook h).irq
  if ret h then s.setActids irq' (s.irqActids irq' &&& ~~~(s.hook h).id) else s

def irqHandle (s : State ι) (irq : Int) (ret : ι → Bool) : State ι :=
  if s.Invalid irq then s.panic
  else
    let s := s.hwIntrMask irq
    if s.irqHandlers irq = [] then s -- spurious: the line stays masked
    else
      let s := (s.irqHandlers irq).foldl (callHandler irq ret) s
      if s.irqActids irq = 0 then s.hwIntrUnmask irq else s

/-- Returns whether the interrupt was enabled before the call. -/
def disableIrq (s : State ι) (h : ι) : State ι × Bool :=
  let irq := (s.hook h).irq
  if s.irqActids irq &&& (s.hook h).id ≠ 0 then (s, false)
  else ((s.setActids irq (s.irqActids irq ||| (s.hook h).id)).hwIntrMask irq, true)

end State

/-- A call of one of the five functions. The handlers may return anything. -/
inductive Call (ι : Type)
  | put (h : ι) (irq : Int)
  | rm (h : ι)
  | enable (h : ι)
  | disable (h : ι)
  | handle (irq : Int) (ret : ι → Bool)

namespace State

variable [DecidableEq ι]

def step (s : State ι) : Call ι → State ι
  | .put h irq => s.putIrqHandler h irq
  | .rm h => s.rmIrqHandler h
  | .enable h => s.enableIrq h
  | .disable h => (s.disableIrq h).1
  | .handle irq ret => s.irqHandle irq ret

/-- The line that a call is about. -/
def lineOf (s : State ι) : Call ι → Int
  | .put _ irq => irq
  | .rm h | .enable h | .disable h => (s.hook h).irq
  | .handle irq _ => irq

def Registered (s : State ι) (h : ι) : Prop := h ∈ s.irqHandlers (s.hook h).irq

instance (s : State ι) : DecidablePred s.Registered := fun _ => List.instDecidableMemOfLawfulBEq _ _

/-- A registered hook stays on its line, and only a registered one is removed, enabled or disabled.
-/
def Promised (s : State ι) : Call ι → Prop
  | .put h irq => s.Registered h → (s.hook h).irq = irq
  | .rm h | .enable h | .disable h => s.Registered h
  | .handle _ _ => True

instance (s : State ι) : DecidablePred s.Promised
  | .put h irq => (inferInstance : Decidable (s.Registered h → (s.hook h).irq = irq))
  | .rm h | .enable h | .disable h => instDecidablePredRegistered s h
  | .handle _ _ => instDecidableTrue

/-- A call is made: the kernel has not panicked. -/
def Made (s : State ι) (c : Call ι) : Prop := s.panicked = false ∧ s.Promised c

instance (s : State ι) : DecidablePred s.Made := fun _ => instDecidableAnd

end State

end HardenedMinix.Kernel.Interrupts
