import Mathlib.Logic.Function.Basic

/-!
# Source-shaped event handlers

A transcription of `eventHandler` and `handlerSlot` of `lib/eventHandler.lua`. A handler is named
by the number of its creation and a slot by a number; `handlers` of a slot is an array of
handlers, read with indices from 1. What a handler function returns is an input: `unregisters`
tells which handlers return `"unregister"`.
-/

namespace Chuck.EventHandlerModel

open Function

structure EventHandler where
  mutexMode : Bool
  slot : Option Nat
  idx : Option Nat
  deriving DecidableEq, Repr

/-- `objects` holds the handlers ever made, those below `made`. -/
structure World where
  objects : Nat → EventHandler
  made : Nat
  slots : Nat → List Nat

def World.new : World := ⟨fun _ => ⟨false, none, none⟩, 0, fun _ => []⟩

def World.set (world : World) (handler : Nat) (object : EventHandler) : World :=
  { world with objects := update world.objects handler object }

def entry (handlers : List Nat) (idx : Nat) : Option Nat :=
  if idx = 0 then none else handlers[idx - 1]?

def renumber : List Nat → Nat → World → World
  | [], _, world => world
  | v :: rest, k, world =>
    renumber rest (k + 1) (world.set v { world.objects v with idx := some k })

/-- `eventHandler:UnRegister`; the second part is the returned text. -/
def unRegister (world : World) (handler : Nat) : World × Option String :=
  let self := world.objects handler
  match self.slot with
  | none => (world, some "self.slot == nil")
  | some slot =>
    match self.idx with
    | none => (world, some "self.idx == nil")
    | some idx =>
      if entry (world.slots slot) idx ≠ some handler then
        (world, some "self ~= self.slot[self.idx]")
      else
        let handlers := (world.slots slot).eraseIdx (idx - 1)
        let world := { world with slots := update world.slots slot handlers }
        let world := if idx ≠ handlers.length + 1 then renumber handlers 1 world else world
        (world.set handler { world.objects handler with slot := none }, none)

def insertNew (world : World) (slot idx : Nat) (mutexMode : Bool) : World × Nat :=
  ({ objects := update world.objects world.made ⟨mutexMode, some slot, some idx⟩
     made := world.made + 1
     slots := update world.slots slot (world.slots slot ++ [world.made]) }, world.made)

def registerHandler (world : World) (slot : Nat) (mutexMode : Bool) : World × Option Nat :=
  let handlers := world.slots slot
  if (handlers.getLast?.any fun top => (world.objects top).mutexMode) ∧ ¬mutexMode then
    (world, none)
  else
    let (world, handler) := insertNew world slot (handlers.length + 1) mutexMode
    (world, some handler)

def clear (world : World) (slot : Nat) : World :=
  let world := (world.slots slot).foldl (fun world v =>
    world.set v { world.objects v with slot := none }) world
  { world with slots := update world.slots slot [] }

def replaceHandler (world : World) (slot : Nat) (mutexMode : Bool) : World × Nat :=
  insertNew (clear world slot) slot 1 mutexMode

/-- The loop of `handlerSlot:OnEvent` from the index `k` on, with the handlers that it calls;
`none` when the fuel does not suffice. -/
def onEventLoop (unregisters : Nat → Bool) (slot : Nat) : Nat → Nat → World →
    Option (World × List Nat)
  | 0, _, _ => none
  | fuel + 1, k, world =>
    match entry (world.slots slot) k with
    | none => some (world, [])
    | some h =>
      if unregisters h then
        let world := (unRegister world h).1
        if k ≥ (world.slots slot).length then some (world, [h])
        else (onEventLoop unregisters slot fuel k world).map fun (after, calls) =>
          (after, h :: calls)
      else
        (onEventLoop unregisters slot fuel (k + 1) world).map fun (after, calls) =>
          (after, h :: calls)

def onEvent (unregisters : Nat → Bool) (slot : Nat) (world : World) : Option (World × List Nat) :=
  match (world.slots slot).getLast? with
  | none => some (world, [])
  | some top =>
    if (world.objects top).mutexMode then
      some (if unregisters top then (unRegister world top).1 else world, [top])
    else onEventLoop unregisters slot ((world.slots slot).length + 1) 1 world

inductive Op where
  | registerHandler (slot : Nat) (mutexMode : Bool)
  | unRegister (handler : Nat)
  | clear (slot : Nat)
  | replaceHandler (slot : Nat) (mutexMode : Bool)
  deriving DecidableEq, Repr

def step (world : World) : Op → World
  | .registerHandler slot mutexMode => (registerHandler world slot mutexMode).1
  | .unRegister handler => (unRegister world handler).1
  | .clear slot => clear world slot
  | .replaceHandler slot mutexMode => (replaceHandler world slot mutexMode).1

def run (ops : List Op) : World := ops.foldl step World.new

end Chuck.EventHandlerModel
