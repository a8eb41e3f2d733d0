import PerceptronSoc.Lib.Worklist
import Mathlib.Logic.Function.Basic

/-! `uniquify-module-names.py`: the modules that the model shares with the top get copies
of their own, breadth first over the model's hierarchy, and the hierarchy gets the new
names, depth first. Of a Verilog file the model keeps what the script looks at: the module
it declares and the modules it instantiates; a `sed` call renames exactly these. All files
are in the collateral directory, whose path is absolute, so that joining it to the path of
a copy changes nothing. -/

namespace PerceptronSoc

/-- An instance of the hierarchy JSON. -/
inductive Hier where
  | node (instanceName moduleName : String) (instances : List Hier)

namespace Hier

def moduleName : Hier → String
  | node _ m _ => m

def instances : Hier → List Hier
  | node _ _ cs => cs

def setModuleName : Hier → String → Hier
  | node i _ cs, m => node i m cs

mutual

/-- How many instances there are. -/
def size : Hier → ℕ
  | node _ _ cs => sizes cs + 1

def sizes : List Hier → ℕ
  | [] => 0
  | c :: cs => c.size + sizes cs

end

end Hier

/-- A base name as `os.path.splitext` takes it apart. -/
structure FileName where
  stem : String
  ext : String
deriving DecidableEq

structure VerilogFile where
  declares : String
  instantiates : List String
deriving DecidableEq

/-- `sed` on a file that instantiates `mod`. -/
def VerilogFile.rename (v : VerilogFile) (mod new : String) : VerilogFile :=
  { v with instantiates := v.instantiates.map fun r => if r = mod then new else r }

namespace Uniquify

/-- The names of the DUT and of the model. -/
structure Args where
  dut : String
  model : String

def Args.modelSfx (a : Args) : String := a.model ++ "_UNIQUIFIED"

/-- `mod + "_" + MODEL_SFX` -/
def Args.uniquified (a : Args) (mod : String) : String := mod ++ "_" ++ a.modelSfx

/-- What the script reads and writes: the collateral directory,
`verilog_module_filename` and `updated_submodule`. -/
structure State where
  files : FileName → Option VerilogFile
  moduleFile : String → Option FileName
  updated : List (String × String)

/-- The loop of `bfs_collect_modules` only lists what it takes from its queue. -/
def bfsCollectModules (tree : Hier) (childToIgnore : Option String) : List String :=
  (Worklist.order (fun t => t.instances.filter fun c => some c.moduleName ≠ childToIgnore)
    tree.size [tree]).map Hier.moduleName

/-- `common_modules` of `main` -/
def commonModules (a : Args) (top tree : Hier) : List String :=
  (bfsCollectModules top none).filter fun m => m ∈ bfsCollectModules tree (some a.dut)

/-! ### Files -/

def Args.copyName (a : Args) (file : FileName) : FileName := ⟨a.uniquified file.stem, file.ext⟩

/-- The copy declares the new name if the file is named after its module; `none` when
there is nothing to copy. -/
def generateCopy (a : Args) (st : State) (file : FileName) : Option State :=
  match st.files file with
  | none => none
  | some v =>
    let declares := if v.declares = file.stem then a.uniquified file.stem else v.declares
    some { st with
      files := Function.update st.files (a.copyName file) (some { v with declares := declares }) }

/-- The edit of the parent's file, once for a parent and a module. Without a file for the
parent the script raises, and the edit is not noted. -/
def updateParent (a : Args) (st : State) (mod : String) : Option String → Option State
  | none => some st
  | some parent =>
    if (parent, mod) ∈ st.updated then some st
    else
      match st.moduleFile parent with
      | none => none
      | some file =>
        match st.files file with
        | none => none
        | some v =>
          some { st with
            files := Function.update st.files file (some (v.rename mod (a.uniquified mod)))
            updated := (parent, mod) :: st.updated }

/-- The `try` block for a common module: its new name, and the state. What was done
before an exception stays, and the name is then the old one. -/
def uniquifyCommon (a : Args) (st : State) (mod : String) (file : FileName)
    (parent : Option String) : String × State :=
  match generateCopy a st file with
  | none => (mod, st)
  | some st =>
    match updateParent a st mod parent with
    | none => (mod, st)
    | some st =>
      (a.uniquified mod, { st with
        moduleFile := Function.update st.moduleFile (a.uniquified mod) (some (a.copyName file)) })

/-- One round of the loop of `bfs_uniquify_modules`; the queue holds an instance and the
new name of its parent's module. An external module must not have instances. -/
def visit (a : Args) (common : List String) (st : State) (front : Hier × Option String) :
    Option (State × List (Hier × Option String)) :=
  let (tree, parent) := front
  let mod := tree.moduleName
  match st.moduleFile mod with
  | none => if tree.instances.isEmpty then some (st, []) else none
  | some file =>
    let (newMod, st) := if mod ∈ common then uniquifyCommon a st mod file parent else (mod, st)
    some (st, (tree.instances.filter fun c => c.moduleName ≠ a.dut).map fun c => (c, some newMod))

def bfsUniquifyModules (a : Args) (common : List String) (tree : Hier) (st : State) :
    Option State :=
  Worklist.run (visit a common) tree.size [(tree, none)] { st with updated := [] }

/-! ### The hierarchy -/

mutual

/-- The second component is what `dfs_update_modules` returns: the module is common, or
one below it is. -/
def dfsUpdateModules (a : Args) (common : List String) : Hier → Hier × Bool
  | .node i mod cs =>
    let (cs, childsToUpdate) := dfsUpdateInstances a common cs
    (.node i mod cs, mod ∈ common || childsToUpdate)

/-- The loop over the instances; the DUT is left as it is. -/
def dfsUpdateInstances (a : Args) (common : List String) : List Hier → List Hier × Bool
  | [] => ([], false)
  | child :: rest =>
    let (rest, childsToUpdate) := dfsUpdateInstances a common rest
    if child.moduleName = a.dut then (child :: rest, childsToUpdate)
    else
      let (child', update) := dfsUpdateModules a common child
      let child' := if update ∧ child.moduleName ∈ common then
        child'.setModuleName (a.uniquified child.moduleName) else child'
      (child' :: rest, update || childsToUpdate)

end

/-- The emitted hierarchy and the files; `none` when the assertion fails. -/
def uniquifyModulesUnderModel (a : Args) (common : List String) (tree : Hier) (st : State) :
    Option (Hier × State) :=
  match bfsUniquifyModules a common tree st with
  | none => none
  | some st => some ((dfsUpdateModules a common tree).1, st)

end Uniquify

end PerceptronSoc
