import Lineage.Blueprint.Document
import Lineage.Style

/-!
# Building a blueprint

The style forest of a blueprint has a root-level node for each block and the classes and states of
its selectors below it.  All nodes are there before the first base is set, and only the bases of
blocks that extend another are set; all others are found when they are read.
-/

namespace Lineage

namespace Blueprint

/-- Why nothing is built. -/
inductive BuildError where
  | config (cause : ConfigError)
  | forest (cause : Error)
deriving DecidableEq

def BuildError.message : BuildError → String
  | config cause => "Config error: " ++ cause.message
  | forest cause => "Tree error: " ++ cause.message

/-- A session on a style forest, with the nodes of the blocks by name. -/
structure Built where
  session : Session Style
  blocks : NameMap NodeId

/-! ## Steps -/

/-- Add a block with what its selectors name. -/
def Block.add (block : Block) : Action Style NodeId := do
  let id ← Style.addBlock block.name
  block.selectors.forM fun selector ↦ do
    let _ ← Style.obtainSelector id selector.className selector.state
  return id

/-- The node of a block that was added. -/
def nodeOf (ids : NameMap NodeId) (name : String) : Except Error NodeId :=
  match ids.find? name with
  | some id => .ok id
  | none => .error (.unknownBlock name)

/-- Make the block that a block extends its base. -/
def Block.wire (ids : NameMap NodeId) (block : Block) : Action Style Unit := do
  let some base := block.base | return
  let id ← nodeOf ids block.name
  let baseId ← nodeOf ids base
  Action.look fun _ ↦ Lookup.report (return .wiring block.name base)
  Action.extend id baseId

/-- Add all blocks, then set their bases. -/
def construct (blueprint : Blueprint) : Action Style (NameMap NodeId) := do
  let ids ← blueprint.blocks.foldlM (fun ids block ↦ do
    return ids.insert block.name (← block.add)) NameMap.empty
  blueprint.blocks.forM (·.wire ids)
  Action.look fun forest ↦ Lookup.report (return .built ids.size forest.size)
  return ids

/-! ## Results -/

/-- Build a blueprint, with a journal of it if one is to be kept. -/
def build (blueprint : Blueprint) (recording : Bool) : Except BuildError Built :=
  match blueprint.construct.run (.empty Style recording) with
  | (.ok blocks, session) => .ok ⟨session, blocks⟩
  | (.error cause, _) => .error (.forest cause)

/-- Build what a text describes. -/
def buildText (text : String) (recording : Bool) : Except BuildError Built := do
  let blueprint ← (ofText text).mapError .config
  blueprint.build recording

/-- Build what the bytes of a file describe, if there is a file. -/
def load (content : Option ByteArray) (recording : Bool) : Except BuildError Built := do
  let blueprint ← (ofFile content).mapError .config
  blueprint.build recording

end Blueprint

end Lineage
