import BlockLowering.Pass.Continuation
/-!
Exceptions and calls. A call that may throw inside a catching scope becomes an invoke that unwinds to
the scope's landing pad, which hands the exception to the scope's handler; both are made when first
needed. Outside catching scopes exceptions go to the caller.
-/
namespace BlockLowering.Lower

/-- The handler of a catching scope, made now if it is the first time. -/
def handlerOf (scope : Nat) : Lower Continuation := do
  match (← scopeState scope).handler with
  | some handler => return handler
  | none =>
    let handler ← newContinuation .object "catch.handler"
    modifyScope scope fun s => { s with handler := some handler }
    return handler

/-- Call a routine that lets no exception out. -/
def callPlain (target : CallTarget) (args : List Register) : Lower (Option Register) :=
  build (Build.call ⟨target.callee,args,target.signature,.irrelevant⟩)

/-- The exception object of a record; the native catch is over at once. -/
def extractException (record : Register) : Lower Register := do
  let exception ← produced .exception (← callPlain (← supportTarget .beginCatch) [record])
  let _ ← callPlain (← supportTarget .endCatch) []
  return exception

/-- The landing pad of a catching scope, made now if it is the first time. -/
def landingPadOf (scope : Nat) : Lower BlockId := do
  match (← scopeState scope).landingPad with
  | some pad => return pad
  | none =>
    let pad ← build (Build.labelledBlock "landing.pad")
    modifyScope scope fun s => { s with landingPad := some pad }
    let handler ← handlerOf scope
    atBlock pad do
      let record ← build Build.landingPad
      let exception ← extractException record
      jump handler (.ofRegister exception .object)
    log (.landingPad pad scope)
    return pad

/-- Call a function at a point; an exception goes to the innermost catching scope. -/
def call (chain : Chain) (target : CallTarget) (args : List Register) (lifetime : Lifetime) : Lower (Option Register) := do
  let site : CallSite := ⟨target.callee,args,target.signature,lifetime⟩
  match ← chain.catcher .calling with
  | some scope =>
    if target.canThrow then
      let unwind ← landingPadOf scope
      let normal ← build (Build.labelledBlock "invoke.normal")
      let dest ← build (Build.invoke site normal unwind)
      build (Build.switchTo normal)
      return dest
    else build (Build.call site)
  | none => build (Build.call site)

def callSupport (chain : Chain) (routine : SupportRoutine) (args : List Register) : Lower (Option Register) := do
  let target ← supportTarget routine
  if target.canThrow then call chain target args .irrelevant else callPlain target args

/-- Throw an exception: to the innermost handler, or out of the function. -/
def throwException (chain : Chain) (exception : Register) : Lower Unit := do
  match ← chain.catcher .throwing with
  | some scope =>
    let handler ← handlerOf scope
    jump handler (.ofRegister exception .object)
  | none =>
    let _ ← callPlain (← supportTarget .throwException) [exception]
    build Build.unreachable

end BlockLowering.Lower
