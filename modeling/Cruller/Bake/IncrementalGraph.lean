import Cruller.Bake.SourceMapStore

/-!
# The incremental graphs of the dev server

There is a graph of the files of each side. A file has a list of the edges to what it imports and
one of the edges from what depends on it; an edge is a node of both lists, and its slot is used
again once it is freed.
-/

namespace Cruller.Bake

abbrev Code := List UInt8

abbrev GraphKey := List UInt8

abbrev FileIndex := ℕ

abbrev EdgeIndex := ℕ

abbrev BundleIndex := ℕ

abbrev RouteBundleIndex := ℕ

abbrev RouteIndex := ℕ

abbrev CssAssetId := UInt64

inductive Side where
  | client
  | server
deriving DecidableEq

/-- What a file is bundled as. -/
inductive FileKind where
  | unknown
  | js
  | asset
  | css
deriving DecidableEq, Inhabited

inductive Loader where
  | jsx | js | ts | tsx | css | file | json | jsonc | toml | wasm | napi | base64 | dataurl | text
  | bunsh | sqlite | sqlite_embedded | html | yaml | json5 | md
deriving DecidableEq

def Loader.isCSS (loader : Loader) : Bool := loader = .css

def Loader.isJavaScriptLike : Loader → Bool
  | .jsx | .js | .ts | .tsx => true
  | _ => false

/-- What the graph of the server keeps of a file. -/
structure ServerFile where
  is_rsc : Bool
  is_ssr : Bool
  is_client_component_boundary : Bool
  is_route : Bool
  failed : Bool
  kind : FileKind
deriving DecidableEq, Inhabited

/-- What a file of the client is. -/
inductive Content where
  | unknown
  | js (code : Code)
  | asset (code : Code)
  | css_root (id : CssAssetId)
  | css_child
deriving DecidableEq, Inhabited

def Content.isAsset : Content → Bool
  | asset _ => true
  | _ => false

/-- The source map of a file of the client. -/
inductive SharedMap where
  | some (vlq : List UInt8)
  | none
  | line_count (count : ℕ)
deriving DecidableEq, Inhabited

/-- The mappings are the caller's now. -/
def SharedMap.take : SharedMap → SharedMap
  | some _ => none
  | map => map

/-- What the graph of the client keeps of a file. -/
structure ClientFile where
  content : Content
  source_map : SharedMap
  html_route_bundle_index : Option RouteBundleIndex
  failed : Bool
  is_hmr_root : Bool
  is_special_framework_file : Bool
deriving DecidableEq, Inhabited

def ClientFile.init (content : Content) : ClientFile where
  content := content
  source_map := .none
  html_route_bundle_index := none
  failed := false
  is_hmr_root := false
  is_special_framework_file := false

/-- The script of a file. -/
def ClientFile.jsCode (file : ClientFile) : Option Code :=
  match file.content with
  | .js code | .asset code => some code
  | _ => none

namespace Side

/-- What the graph of a side keeps of a file. -/
abbrev File : Side → Type
  | client => ClientFile
  | server => ServerFile

/-- The client's graph keeps the code, the server's does not. -/
abbrev ChunkPart : Side → Type
  | client => FileIndex
  | server => Code

instance : ∀ side : Side, Inhabited side.File
  | client => inferInstanceAs (Inhabited ClientFile)
  | server => inferInstanceAs (Inhabited ServerFile)

def failed : ∀ {side : Side}, side.File → Bool
  | client, file => ClientFile.failed file
  | server, file => ServerFile.failed file

end Side

/-- An import of a file by another, in the lists of both. -/
structure Edge where
  /-- The file with the import statement. -/
  dependency : FileIndex
  /-- The file the import statement references. -/
  imported : FileIndex
  next_import : Option EdgeIndex
  next_dependency : Option EdgeIndex
  prev_dependency : Option EdgeIndex
deriving DecidableEq

/-- All lists but those of the edges are indexed by files. -/
structure IncrementalGraph (side : Side) where
  /-- The key of a file that has been deleted is `none`. -/
  bundled_files : List (Option GraphKey × side.File)
  stale_files : List Bool
  first_dep : List (Option EdgeIndex)
  first_import : List (Option EdgeIndex)
  edges : List Edge
  edges_free_list : List EdgeIndex
  current_chunk_len : ℕ
  current_chunk_parts : List side.ChunkPart
  /-- Of the client. -/
  current_css_files : List CssAssetId
  /-- Of the server. -/
  current_chunk_source_maps : List (FileIndex × SharedMap)

/-- The messages of the graph's panics, and what stops it without one. -/
inductive GraphPanic where
  | assertion
  | outOfBounds
  | overflow
  | emptyChunk
  | missingSerializedFailure
  | missingFailure
  | failedToGetBundlingFailure
  | routeNotInLookupIndex
  | serverGraphIsMissingComponent
  | clientGraphIsMissingComponent
  | clientGraphsSCBWasAlreadyDeleted
  | unresolvedIndex
  /-- A loop that is not over yet. -/
  | running
deriving DecidableEq

/-- A panic of the source ends the operation. -/
abbrev Outcome := Except GraphPanic

def orElsePanic {α : Type} (p : GraphPanic) : Option α → Outcome α
  | some a => .ok a
  | none => .error p

/-- Assertions are stripped in release builds. -/
def assert (allow_assert ok : Bool) : Outcome Unit :=
  if allow_assert && !ok then .error .assertion else .ok ()

namespace IncrementalGraph

variable (allow_assert : Bool) {side : Side} (g : IncrementalGraph side)

/-- The graph of a new server. -/
def empty : IncrementalGraph side where
  bundled_files := []
  stale_files := []
  first_dep := []
  first_import := []
  edges := []
  edges_free_list := []
  current_chunk_len := 0
  current_chunk_parts := []
  current_css_files := []
  current_chunk_source_maps := []

/-- The file of a path. -/
def getFileIndex (path : GraphKey) : Option FileIndex :=
  g.bundled_files.findIdx? (·.1 = some path)

def getFileByIndex (index : FileIndex) : Outcome side.File :=
  orElsePanic .outOfBounds (g.bundled_files[index]?.map (·.2))

/-- The file is written anew. -/
def setFile (index : FileIndex) (file : side.File) : IncrementalGraph side :=
  { g with bundled_files := g.bundled_files.modify index fun entry => (entry.1, file) }

/-- The file of a path, which may have just been put there. -/
structure GetOrPutResult (side : Side) where
  index : FileIndex
  found_existing : Bool
  /-- Of a file that is new, nothing has been set. -/
  value : side.File

/-- A key that is not found is added, and with it the start of the two lists of its file. An index
is a `u30` that is not the greatest one. -/
def getOrPut (key : GraphKey) : Outcome (GetOrPutResult side × IncrementalGraph side) :=
  match g.getFileIndex key with
  | some index => do
    return (⟨index, true, ← g.getFileByIndex index⟩, g)
  | none =>
    if g.bundled_files.length < 2 ^ 30 - 1 then
      .ok (⟨g.bundled_files.length, false, default⟩,
        { g with
          bundled_files := g.bundled_files ++ [(some key, default)]
          first_dep := g.first_dep ++ [none]
          first_import := g.first_import ++ [none] })
    else .error .overflow

/-- Aligned to eight times the bits of a word. -/
def ensureStaleBitCapacity (are_new_files_stale : Bool) : IncrementalGraph side :=
  let len := max g.bundled_files.length g.stale_files.length
  let aligned := (len + 511) / 512 * 512
  { g with
    stale_files := g.stale_files
      ++ List.replicate (aligned - g.stale_files.length) are_new_files_stale }

def setStale (index : FileIndex) (stale : Bool) : IncrementalGraph side :=
  { g with stale_files := g.stale_files.set index stale }

/-- An edge is written; the index must be in bounds. -/
def modifyEdge (index : EdgeIndex) (f : Edge → Edge) : Outcome (IncrementalGraph side) :=
  if index < g.edges.length then .ok { g with edges := g.edges.modify index f }
  else .error .outOfBounds

/-- An edge that is free is taken from the end of the free list. -/
def newEdge (edge : Edge) : Outcome (EdgeIndex × IncrementalGraph side) :=
  match g.edges_free_list.getLast? with
  | some index => do
    let g ← g.modifyEdge index fun _ => edge
    return (index, { g with edges_free_list := g.edges_free_list.dropLast })
  | none =>
    if g.edges.length < 2 ^ 32 - 1 then
      .ok (g.edges.length, { g with edges := g.edges ++ [edge] })
    else .error .overflow

/-- An edge can be used again; the last one is dropped. -/
def freeEdge (edge_index : EdgeIndex) : IncrementalGraph side :=
  if g.edges.length = edge_index + 1 then { g with edges := g.edges.dropLast }
  else { g with edges_free_list := g.edges_free_list ++ [edge_index] }

theorem bundled_files_freeEdge (edge_index : EdgeIndex) :
    (g.freeEdge edge_index).bundled_files = g.bundled_files := by
  unfold freeEdge
  split_ifs <;> rfl

/-- An edge is taken out of the list of the file that it imports. -/
def disconnectEdgeFromDependencyList (edge_index : EdgeIndex) :
    Outcome (IncrementalGraph side) := do
  let edge ← orElsePanic .outOfBounds g.edges[edge_index]?
  match edge.prev_dependency with
  | some prev =>
    let g ← g.modifyEdge prev fun prev_dependency =>
      { prev_dependency with next_dependency := edge.next_dependency }
    match edge.next_dependency with
    | some next =>
      g.modifyEdge next fun next_dependency =>
        { next_dependency with prev_dependency := edge.prev_dependency }
    | none => return g
  | none =>
    assert allow_assert (g.first_dep[edge.imported]? = some (some edge_index))
    match edge.next_dependency with
    | some next =>
      let g ← g.modifyEdge next fun next_dependency =>
        { next_dependency with prev_dependency := none }
      return { g with first_dep := g.first_dep.set edge.imported (some next) }
    | none => return { g with first_dep := g.first_dep.set edge.imported none }

/-- The loop over the imports of a file that is deleted. Each edge is read before it is freed. -/
def disconnectImports (index : FileIndex) :
    ℕ → Option EdgeIndex → IncrementalGraph side → Outcome (IncrementalGraph side)
  | _, none, g => .ok g
  | 0, some _, _ => .error .running
  | fuel + 1, some edge_index, g => do
    let dep ← orElsePanic .outOfBounds g.edges[edge_index]?
    assert allow_assert (dep.dependency = index)
    let g ← g.disconnectEdgeFromDependencyList allow_assert edge_index
    disconnectImports index fuel dep.next_import (g.freeEdge edge_index)

/-- All the edges from a file are freed. -/
def disconnectAll (index : FileIndex) : Outcome (IncrementalGraph side) := do
  let it ← orElsePanic .outOfBounds g.first_import[index]?
  disconnectImports allow_assert index g.edges.length it
    { g with first_import := g.first_import.set index none }

/-- The edges of a list; `running` when it has no end. -/
def edgesFrom (edges : List Edge) (next : Edge → Option EdgeIndex) :
    ℕ → Option EdgeIndex → Outcome (List Edge)
  | _, none => .ok []
  | 0, some _ => .error .running
  | fuel + 1, some edge_index => do
    let edge ← orElsePanic .outOfBounds edges[edge_index]?
    return edge :: (← edgesFrom edges next fuel (next edge))

/-- The edges from the files that depend on a file, as a loop over them sees them. -/
def dependencies (index : FileIndex) : Outcome (List Edge) := do
  let it ← orElsePanic .outOfBounds g.first_dep[index]?
  edgesFrom g.edges Edge.next_dependency g.edges.length it

/-- The edges from a file. -/
def imports (index : FileIndex) : Outcome (List Edge) := do
  let it ← orElsePanic .outOfBounds g.first_import[index]?
  edgesFrom g.edges Edge.next_import g.edges.length it

/-- The files that depend on a deleted one are queued for the bundler, in this order. -/
def onFileDeleted (abs_path : GraphKey) :
    Outcome (IncrementalGraph side × List (Option GraphKey)) :=
  match g.getFileIndex abs_path with
  | none => .ok (g, [])
  | some index => do
    let g ← g.disconnectAll allow_assert index
    let queued ← (← g.dependencies index).mapM fun dep =>
      orElsePanic .outOfBounds (g.bundled_files[dep.dependency]?.map (·.1))
    return (g, queued)

/-- The file's key and content go; its index stays. -/
def disconnectAndDeleteFile (file_index : FileIndex) : Outcome (IncrementalGraph side) := do
  assert allow_assert (g.first_dep[file_index]? = some none)
  let g ← g.disconnectAll allow_assert file_index
  let g := { g with
    bundled_files := g.bundled_files.modify file_index fun entry => (none, entry.2) }
  assert allow_assert (g.first_dep[file_index]? = some none)
  assert allow_assert (g.first_import[file_index]? = some none)
  return g

end IncrementalGraph

end Cruller.Bake
