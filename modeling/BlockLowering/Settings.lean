import BlockLowering.Toml.Parser
/-!
The switches of a lowering run, with presets, changes one by one, and a TOML form in which every key
may be missing and unknown keys are ignored.
-/
namespace BlockLowering

structure Settings where
  verify : Bool
  dumpOnFailure : Bool
  /-- Turn factory calls on constants into static data. -/
  foldFactories : Bool
  prune : Bool
  emitLabels : Bool
  moduleName : String
  deriving DecidableEq, Repr

namespace Settings

/-- Everything checked and labelled. -/
def development : Settings := ⟨true,true,true,true,true,"main"⟩

/-- No labels and no listings. -/
def release : Settings := { development with dumpOnFailure := false, emitLabels := false }

instance : Inhabited Settings := ⟨development⟩

/-- A truth value of a table, or a default when the key is missing. -/
def flag? (entries : Toml.Entries) (key : String) (default : Bool) : Option Bool :=
  match entries.lookup key with
  | none => some default
  | some (.value (.boolean b)) => some b
  | some _ => none

def text? (entries : Toml.Entries) (key : String) (default : String) : Option String :=
  match entries.lookup key with
  | none => some default
  | some (.value (.string s)) => some s
  | some _ => none

def ofToml? (document : String) : Option Settings := do
  let entries ← Toml.parse? document
  let base := development
  return {
    verify := ← flag? entries "verify_functions" base.verify
    dumpOnFailure := ← flag? entries "dump_on_verification_failure" base.dumpOnFailure
    foldFactories := ← flag? entries "fold_constant_factories" base.foldFactories
    prune := ← flag? entries "prune_unreachable_blocks" base.prune
    emitLabels := ← flag? entries "emit_block_labels" base.emitLabels
    moduleName := ← text? entries "module_name" base.moduleName }

end Settings

end BlockLowering
