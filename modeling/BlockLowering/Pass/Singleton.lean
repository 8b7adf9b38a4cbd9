import BlockLowering.Pass.Call
/-!
Singletons. The instance is made when it is first asked for and kept in a global; the guard is a load
and a test, and is not safe against concurrent first use.
-/
namespace BlockLowering.Lower

/-- Make the instance, keep it and go on with it. -/
def createSingleton (chain : Chain) (cls : ClassId) (slot : Register) (merge : Continuation) (ty : Ty) : Lower Unit := do
  let object ← allocateInstance chain cls
  let constructor ← (← read).decls.defaultConstructor cls
  let target ← directTarget constructor.id
  let _ ← call chain target [object] .irrelevant
  if ← isTerminated then return
  build (Build.store slot object)
  jump merge (.ofRegister object ty)

/-- The instance of a singleton class; another module initializes the instance of an external one. -/
def lowerSingleton (chain : Chain) (cls : ClassId) (ty : Ty) : Lower Value := do
  let global ← globalOf (.singleton cls)
  let slot ← build (Build.const (.global global))
  let current ← build (Build.load slot .ptr)
  if (← (← read).decls.getClass cls).isExternal then return .ofRegister current ty
  let merge ← newContinuation (.reference cls false) "object.ready"
  let create ← build (Build.labelledBlock "object.init")
  let loaded ← build (Build.labelledBlock "object.loaded")
  build do
    let null ← Build.null
    let isNull ← Build.compare .eq current null
    Build.condBranch isNull create loaded
    Build.switchTo loaded
  jump merge (.ofRegister current ty)
  build (Build.switchTo create)
  createSingleton chain cls slot merge ty
  return (← resumeAt merge).withType ty

end BlockLowering.Lower
