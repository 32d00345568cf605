import Cruller.Bake.IncrementalGraph

/-!
# A hot update of the incremental graphs

What a bundle brings is entered file by file: its chunks, its failures, and then the edges of its
imports, which are compared with those of the build before. A change is traced to the routes that
it affects.
-/

namespace Cruller.Bake

structure ImportRecord where
  is_unused : Bool
  /-- `none` is an index that is not valid. -/
  source_index : Option BundleIndex
  path : GraphKey
deriving DecidableEq

def ImportRecord.isRuntime (record : ImportRecord) : Bool := record.source_index = some 0

/-- The files of each side that a trace has been to. -/
structure GraphTraceState where
  bits : Side → Finset FileIndex

namespace GraphTraceState

def empty : GraphTraceState := ⟨fun _ => ∅⟩

def isSet (gts : GraphTraceState) (side : Side) (index : FileIndex) : Bool :=
  index ∈ gts.bits side

def set (gts : GraphTraceState) (side : Side) (index : FileIndex) : GraphTraceState :=
  ⟨Function.update gts.bits side (insert index (gts.bits side))⟩

end GraphTraceState

/-- What the bundler says of its sources, and which files they are already. -/
structure HotUpdateContext where
  path : BundleIndex → GraphKey
  loaders : BundleIndex → Loader
  import_records : BundleIndex → List ImportRecord
  server_to_client_bitset : BundleIndex → Bool
  server_seen_bit_set : FileIndex → Bool
  resolved_index_cache : Side → BundleIndex → Option FileIndex
  gts : GraphTraceState

namespace HotUpdateContext

variable (ctx : HotUpdateContext)

/-- The file of a source, if it is known. -/
def getCachedIndex (side : Side) (index : BundleIndex) : Option FileIndex :=
  ctx.resolved_index_cache side index

def setCachedIndex (side : Side) (index : BundleIndex) (file_index : FileIndex) :
    HotUpdateContext :=
  { ctx with
    resolved_index_cache := Function.update ctx.resolved_index_cache side
      (Function.update (ctx.resolved_index_cache side) index (some file_index)) }

end HotUpdateContext

/-- Who a failure is about. An index of a file is a `u30`, which is as many bits as a packed owner
has for it. -/
inductive SerializedFailure.Owner where
  | none
  | route (index : RouteBundleIndex)
  | client (index : FileIndex)
  | server (index : FileIndex)
deriving DecidableEq

/-- What went wrong in a file. -/
structure SerializedFailure where
  owner : SerializedFailure.Owner
  messages : List (List UInt8)
deriving DecidableEq

def SerializedFailure.Owner.file : Side → FileIndex → SerializedFailure.Owner
  | .client, index => .client index
  | .server, index => .server index

/-- What an update has found to be affected. -/
structure IncrementalResult where
  framework_routes_affected : List RouteIndex
  had_adjusted_edges : Bool
  client_components_added : List FileIndex
  client_components_removed : List FileIndex
  client_components_affected : List FileIndex
  failures_removed : List SerializedFailure
  failures_added : List SerializedFailure
  html_routes_soft_affected : List RouteBundleIndex
  html_routes_hard_affected : List RouteBundleIndex
deriving DecidableEq

def IncrementalResult.empty : IncrementalResult := ⟨[], false, [], [], [], [], [], [], []⟩

/-- The two graphs and what is kept beside them. -/
structure DevServer where
  client_graph : IncrementalGraph .client
  server_graph : IncrementalGraph .server
  route_lookup : FileIndex → Option RouteIndex
  /-- In the order of an array hash map whose keys are compared by their owners. -/
  bundling_failures : List SerializedFailure
  incremental_result : IncrementalResult

namespace DevServer

def init (route_lookup : FileIndex → Option RouteIndex) : DevServer where
  client_graph := .empty
  server_graph := .empty
  route_lookup := route_lookup
  bundling_failures := []
  incremental_result := .empty

variable (allow_assert : Bool) (dev : DevServer)

/-- The graph of a side. -/
def graph : ∀ side : Side, IncrementalGraph side
  | .client => dev.client_graph
  | .server => dev.server_graph

def setGraph : ∀ {side : Side}, IncrementalGraph side → DevServer
  | .client, g => { dev with client_graph := g }
  | .server, g => { dev with server_graph := g }

/-- The last item takes the place of the one removed. -/
def swapRemove {α : Type} (l : List α) (index : ℕ) : List α :=
  match l.getLast? with
  | some last => (l.set index last).dropLast
  | none => []

/-- The failure of an owner, and the failures without it. -/
def fetchSwapRemove (owner : SerializedFailure.Owner) :
    Option (SerializedFailure × List SerializedFailure) := do
  let index ← dev.bundling_failures.findIdx? (·.owner = owner)
  let failure ← dev.bundling_failures[index]?
  return (failure, swapRemove dev.bundling_failures index)

/-- A failure that is solved; `missing` is the panic when there is none. -/
def removeFailure (owner : SerializedFailure.Owner) (missing : GraphPanic) : Outcome DevServer := do
  let (failure, bundling_failures) ← orElsePanic missing (dev.fetchSwapRemove owner)
  return { dev with
    bundling_failures := bundling_failures
    incremental_result := { dev.incremental_result with
      failures_removed := dev.incremental_result.failures_removed ++ [failure] } }

/-- A failure of an owner that has one already takes its place. -/
def addFailure (failure : SerializedFailure) : DevServer :=
  let result := { dev.incremental_result with
    failures_added := dev.incremental_result.failures_added ++ [failure] }
  match dev.bundling_failures.findIdx? (·.owner = failure.owner) with
  | some index => { dev with
    bundling_failures := dev.bundling_failures.set index failure
    incremental_result := { result with
      failures_removed := result.failures_removed ++ dev.bundling_failures[index]?.toList } }
  | none => { dev with
    bundling_failures := dev.bundling_failures ++ [failure]
    incremental_result := result }

/-- The mappings of a chunk, with its source where there is one. -/
structure ChunkSourceMap where
  buffer : List UInt8
  escaped_source : Option Code
deriving DecidableEq

/-- What a bundled source has become. -/
inductive ChunkContent where
  | js (code : Code) (source_map : Option ChunkSourceMap)
  | css (id : CssAssetId)
deriving DecidableEq

def ChunkContent.kind : ChunkContent → FileKind
  | js _ _ => .js
  | css _ => .css

def newline : UInt8 := 10

/-- The content of a file is let go of. -/
def freeFileContent (file : ClientFile) : ClientFile :=
  { file with source_map := file.source_map.take, content := .unknown }

/-- A file of the client as it is stored; its map must match its page. -/
def pack (file : ClientFile) : Outcome ClientFile := do
  assert allow_assert (file.html_route_bundle_index.isNone || file.source_map.take = file.source_map)
  return file

/-- The map that is kept of a chunk, or, of an empty one, how many lines it has. -/
def clientSourceMap (html_route_bundle_index : Option RouteBundleIndex) :
    ChunkContent → Outcome SharedMap
  | .css _ => .ok .none
  | .js code none => .ok (.line_count (code.count newline))
  | .js code (some map) => do
    assert allow_assert html_route_bundle_index.isNone
    if map.buffer.length > 0 then
      let _ ← orElsePanic .outOfBounds map.escaped_source
      return .some map.buffer
    else return .line_count (code.count newline)

def whitespace_chars : List UInt8 := [32, 9, 10, 13, 11, 12]

def isAllWhitespace (code : Code) : Bool := code.all (· ∈ whitespace_chars)

/-- A chunk should at least contain the function wrapper. -/
def assertNotEmpty : ChunkContent → Outcome Unit
  | .js code _ => if allow_assert && isAllWhitespace code then .error .emptyChunk else .ok ()
  | .css _ => .ok ()

variable (ctx : HotUpdateContext) (index : BundleIndex) (content : ChunkContent)

/-- The file no longer fails. -/
def solveFailure (failed : Bool) (owner : SerializedFailure.Owner) (missing : GraphPanic) :
    Outcome DevServer :=
  if failed then dev.removeFailure owner missing else .ok dev

/-- JavaScript chunks are tracked for concatenation. -/
def trackClientChunk (g : IncrementalGraph .client) (file_index : FileIndex) :
    ChunkContent → IncrementalGraph .client
  | .js code _ => { g with
    current_chunk_parts := g.current_chunk_parts ++ [file_index]
    current_chunk_len := g.current_chunk_len + code.length }
  | .css _ => g

/-- `receiveChunk` of the client's graph. -/
def receiveChunkClient : Outcome (DevServer × HotUpdateContext) := do
  assertNotEmpty allow_assert content
  let (gop, g) ← dev.client_graph.getOrPut (ctx.path index)
  let dev ← { dev with client_graph := g.setStale gop.index false }.solveFailure
    (gop.found_existing && gop.value.failed) (.client gop.index) .missingSerializedFailure
  let html_route_bundle_index :=
    if gop.found_existing then gop.value.html_route_bundle_index else none
  let source_map ← clientSourceMap allow_assert html_route_bundle_index content
  let file ← pack allow_assert {
    content := match content with
      | .css id => .css_root id
      | .js code _ => if (ctx.loaders index).isJavaScriptLike then .js code else .asset code
    source_map := source_map
    html_route_bundle_index := html_route_bundle_index
    failed := false
    is_hmr_root := ctx.server_to_client_bitset index
    is_special_framework_file := gop.found_existing && gop.value.is_special_framework_file }
  let g := trackClientChunk (dev.client_graph.setFile gop.index file) gop.index content
  return ({ dev with client_graph := g }, ctx.setCachedIndex .client index gop.index)

/-- A file of the server that is no boundary any more loses its file of the client. -/
def removeBoundary (key : GraphKey) (file_index : FileIndex) : Outcome DevServer := do
  let client_index ← orElsePanic .clientGraphsSCBWasAlreadyDeleted
    (dev.client_graph.getFileIndex key)
  let client_graph ← dev.client_graph.disconnectAndDeleteFile allow_assert client_index
  return { dev with
    client_graph := client_graph
    incremental_result := { dev.incremental_result with
      client_components_removed :=
        dev.incremental_result.client_components_removed ++ [file_index] } }

/-- A file begins to be a boundary. -/
def addBoundary (file_index : FileIndex) : DevServer :=
  { dev with incremental_result := { dev.incremental_result with
    client_components_added := dev.incremental_result.client_components_added ++ [file_index] } }

/-- What becomes of a file that begins or ceases to be a boundary. -/
def updateBoundary (key : GraphKey) (file_index : FileIndex)
    (was_boundary is_boundary : Bool) : Outcome DevServer :=
  if is_boundary then .ok (dev.addBoundary file_index)
  else if was_boundary then dev.removeBoundary allow_assert key file_index
  else .ok dev

/-- The map of a chunk of the server; without mappings its lines are counted. -/
def serverSourceMap (code : Code) : Option ChunkSourceMap → SharedMap
  | some ⟨buffer, some _⟩ =>
    if buffer.length > 0 then .some buffer else .line_count (code.count newline)
  | _ => .line_count (code.count newline)

/-- The chunk is sent with the others of the update. -/
def trackServerChunk (g : IncrementalGraph .server) (file_index : FileIndex) :
    ChunkContent → IncrementalGraph .server
  | .js code source_map => { g with
    current_chunk_parts := g.current_chunk_parts ++ [code]
    current_chunk_len := g.current_chunk_len + code.length
    current_chunk_source_maps := g.current_chunk_source_maps
      ++ [(file_index, serverSourceMap code source_map)] }
  | .css _ => g

/-- `receiveChunk` of the server's graph. -/
def receiveChunkServer (is_ssr_graph : Bool) : Outcome (DevServer × HotUpdateContext) := do
  assertNotEmpty allow_assert content
  let (gop, g) ← dev.server_graph.getOrPut (ctx.path index)
  let client_component_boundary := ctx.server_to_client_bitset index
  let dev ← { dev with server_graph := g.setStale gop.index false }.updateBoundary allow_assert
    (ctx.path index) gop.index (gop.found_existing && gop.value.is_client_component_boundary)
    client_component_boundary
  let file : ServerFile := if gop.found_existing then { gop.value with
      kind := content.kind
      is_ssr := gop.value.is_ssr || is_ssr_graph
      is_rsc := gop.value.is_rsc || !is_ssr_graph
      is_client_component_boundary := client_component_boundary
      failed := false }
    else {
      is_rsc := !is_ssr_graph
      is_ssr := is_ssr_graph
      is_route := false
      is_client_component_boundary := client_component_boundary
      failed := false
      kind := content.kind }
  let dev ← { dev with server_graph := dev.server_graph.setFile gop.index file }.solveFailure
    (gop.found_existing && gop.value.failed) (.server gop.index) .missingFailure
  return ({ dev with server_graph := trackServerChunk dev.server_graph gop.index content },
    ctx.setCachedIndex .server index gop.index)

/-- Server CSS files are just used to be targets for graph traversal. -/
def insertCssFileOnServer (abs_path : GraphKey) : Outcome (DevServer × HotUpdateContext) := do
  let (gop, g) ← dev.server_graph.getOrPut abs_path
  let g := g.setFile gop.index {
    is_rsc := false
    is_ssr := false
    is_route := false
    is_client_component_boundary := false
    failed := false
    kind := .css }
  return ({ dev with server_graph := g }, ctx.setCachedIndex .server index gop.index)

/-- A file with nothing in it. -/
def emptyFile : ∀ side : Side, FileKind → side.File
  | .client, kind => ClientFile.init (match kind with
    | .unknown => .unknown
    | .js => .js []
    | .asset => .asset []
    | .css => .css_child)
  | .server, kind => {
    is_rsc := false
    is_ssr := false
    is_route := false
    is_client_component_boundary := false
    failed := false
    kind := kind : ServerFile }

/-- A file of a kind, whose content comes later. -/
def insertEmpty {side : Side} (g : IncrementalGraph side) (abs_path : GraphKey)
    (kind : FileKind) : Outcome (FileIndex × IncrementalGraph side) := do
  let (gop, g) ← g.getOrPut abs_path
  if gop.found_existing then return (gop.index, g)
  else return (gop.index, (g.setFile gop.index (emptyFile side kind)).ensureStaleBitCapacity true)

/-- What a file becomes whose content is stale, or that has none. -/
def staleFile (is_ssr_graph is_route : Bool) {side : Side}
    (gop : IncrementalGraph.GetOrPutResult side) : Outcome side.File :=
  match side, gop with
  | .client, gop =>
    pack allow_assert
      (if gop.found_existing then freeFileContent gop.value else .init .unknown)
  | .server, gop =>
    if gop.found_existing then .ok { gop.value with
      is_route := gop.value.is_route || is_route
      is_ssr := gop.value.is_ssr || is_ssr_graph
      is_rsc := gop.value.is_rsc || !is_ssr_graph }
    else .ok {
      is_rsc := !is_ssr_graph
      is_ssr := is_ssr_graph
      is_route := is_route
      is_client_component_boundary := false
      failed := false
      kind := .unknown }

/-- A file that has still to be bundled. -/
def insertStaleExtra (side : Side) (abs_path : GraphKey) (is_ssr_graph is_route : Bool) :
    Outcome (FileIndex × DevServer) := do
  let (gop, g) ← (dev.graph side).getOrPut abs_path
  let file ← staleFile allow_assert is_ssr_graph is_route gop
  return (gop.index, dev.setGraph ((g.setStale gop.index true).setFile gop.index file))

/-- The file fails. -/
def setFailed : ∀ {side : Side}, side.File → side.File
  | .client, file => { file with failed := true : ClientFile }
  | .server, file => { file with failed := true : ServerFile }

/-- The file is found by its path, or given by its index. -/
inductive FailureKey where
  | abs_path (path : GraphKey)
  | index (index : FileIndex)

/-- The file that failed, made if there is none. -/
def FailureKey.find {side : Side} (g : IncrementalGraph side) :
    FailureKey → Outcome (IncrementalGraph.GetOrPutResult side × IncrementalGraph side)
  | .abs_path path => g.getOrPut path
  | .index index => do return (⟨index, true, ← g.getFileByIndex index⟩, g)

/-- A file fails, and its failure is put in the place of an earlier one. -/
def insertFailure (side : Side) (key : FailureKey) (messages : List (List UInt8))
    (is_ssr_graph : Bool) : Outcome DevServer := do
  let (gop, g) ← key.find (dev.graph side)
  let g := (g.ensureStaleBitCapacity true).setStale gop.index true
  let file ← staleFile allow_assert is_ssr_graph false gop
  let dev := dev.setGraph (g.setFile gop.index (setFailed file))
  assert allow_assert (messages.length > 0)
  return dev.addFailure ⟨.file side gop.index, messages⟩

inductive TraceDependencyGoal where
  | stop_at_boundary
  | no_stop
deriving DecidableEq

/-- What a trace to the dependents has found. -/
structure DependencyTrace where
  gts : GraphTraceState
  incremental_result : IncrementalResult

variable (goal : TraceDependencyGoal)

/-- The route of a file, if it is one. -/
def affectedRoutes (file : ServerFile) (file_index : FileIndex) : Outcome (List RouteIndex) :=
  if file.is_route then do
    return [← orElsePanic .routeNotInLookupIndex (dev.route_lookup file_index)]
  else .ok []

/-- A route is affected, and so is a boundary. -/
def affectServerFile (file : ServerFile) (file_index : FileIndex) (result : IncrementalResult) :
    Outcome IncrementalResult := do
  let routes ← dev.affectedRoutes file file_index
  return { result with
    framework_routes_affected := result.framework_routes_affected ++ routes
    client_components_affected := result.client_components_affected
      ++ if file.is_client_component_boundary then [file_index] else [] }

/-- From a file to what depends on it, and to its routes. -/
def traceDependenciesServer : ℕ → FileIndex → DependencyTrace → Outcome DependencyTrace
  | 0, _, _ => .error .running
  | fuel + 1, file_index, trace => do
    if trace.gts.isSet .server file_index then return trace
    let trace := { trace with gts := trace.gts.set .server file_index }
    let file ← dev.server_graph.getFileByIndex file_index
    let result ← dev.affectServerFile file file_index trace.incremental_result
    let trace := { trace with incremental_result := result }
    if goal = .stop_at_boundary && file.is_client_component_boundary then return trace
    (← dev.server_graph.dependencies file_index).foldlM
      (fun trace edge => traceDependenciesServer fuel edge.dependency trace) trace

/-- A trace that starts at a file of the client, or comes from one that it imports, is a hard change
of an HTML file. -/
def affectHtmlRoute (result : IncrementalResult) (hard : Bool)
    (route_bundle_index : RouteBundleIndex) : IncrementalResult :=
  if hard then { result with
    html_routes_hard_affected := result.html_routes_hard_affected ++ [route_bundle_index] }
  else { result with
    html_routes_soft_affected := result.html_routes_soft_affected ++ [route_bundle_index] }

/-- From a file to what depends on it: its page, or a root on the server. -/
def traceDependenciesClient (server_fuel : ℕ) :
    ℕ → FileIndex → FileIndex → DependencyTrace → Outcome DependencyTrace
  | 0, _, _, _ => .error .running
  | fuel + 1, file_index, from_file_index, trace => do
    if trace.gts.isSet .client file_index then return trace
    let trace := { trace with gts := trace.gts.set .client file_index }
    let file ← dev.client_graph.getFileByIndex file_index
    let recurse (trace : DependencyTrace) : Outcome DependencyTrace := do
      (← dev.client_graph.dependencies file_index).foldlM (fun trace edge =>
        traceDependenciesClient server_fuel fuel edge.dependency file_index trace) trace
    if file.is_hmr_root then
      let entry ← orElsePanic .outOfBounds dev.client_graph.bundled_files[file_index]?
      let index ← orElsePanic .serverGraphIsMissingComponent
        (entry.1.bind dev.server_graph.getFileIndex)
      recurse (← dev.traceDependenciesServer goal server_fuel index trace)
    else
      match file.html_route_bundle_index with
      | some route_bundle_index =>
        let from_file ← dev.client_graph.getFileByIndex from_file_index
        let trace := { trace with
          incremental_result := affectHtmlRoute trace.incremental_result
            (from_file_index = file_index || from_file.content.isAsset) route_bundle_index }
        if goal = .stop_at_boundary then return trace else recurse trace
      | none => recurse trace

/-- Each call of a trace that goes on sets a bit of its graph. -/
def traceDependencies (side : Side) (file_index from_file_index : FileIndex)
    (trace : DependencyTrace) : Outcome DependencyTrace :=
  let server_fuel := dev.server_graph.bundled_files.length + 1
  match side with
  | .server => dev.traceDependenciesServer goal server_fuel file_index trace
  | .client => dev.traceDependenciesClient goal server_fuel
      (dev.client_graph.bundled_files.length + 1) file_index from_file_index trace

inductive TraceImportGoal where
  | find_css
  | find_client_modules
  | find_errors
deriving DecidableEq

/-- What a trace to the imports has found. -/
structure ImportTrace where
  gts : GraphTraceState
  failures_added : List SerializedFailure
  current_css_files : List CssAssetId
  current_chunk_parts : List FileIndex
  current_chunk_len : ℕ

/-- The failure of a file that fails. -/
def getFailure (owner : SerializedFailure.Owner) : Outcome SerializedFailure :=
  orElsePanic .failedToGetBundlingFailure (dev.bundling_failures.find? (·.owner = owner))

/-- The failure of the file is noted, when the trace looks for failures. -/
def findError (goal : TraceImportGoal) (failed : Bool) (owner : SerializedFailure.Owner)
    (trace : ImportTrace) : Outcome ImportTrace :=
  if goal = .find_errors && failed then do
    let fail ← dev.getFailure owner
    return { trace with failures_added := trace.failures_added ++ [fail] }
  else .ok trace

/-- Follows the imports of a client file and collects what the goal asks for. -/
def traceImportsClient (goal : TraceImportGoal) :
    ℕ → FileIndex → ImportTrace → Outcome ImportTrace
  | 0, _, _ => .error .running
  | fuel + 1, file_index, trace => do
    if trace.gts.isSet .client file_index then return trace
    let trace := { trace with gts := trace.gts.set .client file_index }
    let file ← dev.client_graph.getFileByIndex file_index
    match file.content with
    | .css_root id =>
      if goal = .find_css then
        return { trace with current_css_files := trace.current_css_files ++ [id] }
      else return trace
    | content =>
      -- only CSS roots should be found by tracing
      assert allow_assert (content ≠ .css_child)
      let trace := if goal = .find_client_modules then { trace with
          current_chunk_parts := trace.current_chunk_parts ++ [file_index]
          current_chunk_len := trace.current_chunk_len + (file.jsCode.map List.length).getD 0 }
        else trace
      let trace ← dev.findError goal file.failed (.client file_index) trace
      if goal = .find_errors && file.failed then return trace
      (← dev.client_graph.imports file_index).foldlM
        (fun trace edge => traceImportsClient goal fuel edge.imported trace) trace

/-- Whether and where the trace goes over to the client. -/
def enterClient (goal : TraceImportGoal) (client_fuel : ℕ) (file : ServerFile)
    (file_index : FileIndex) (trace : ImportTrace) : Outcome ImportTrace :=
  if file.is_client_component_boundary || file.kind = .css then do
    let entry ← orElsePanic .outOfBounds dev.server_graph.bundled_files[file_index]?
    let index ← orElsePanic .clientGraphIsMissingComponent
      (entry.1.bind dev.client_graph.getFileIndex)
    dev.traceImportsClient allow_assert goal client_fuel index trace
  else .ok trace

/-- From a file to what it imports. -/
def traceImportsServer (goal : TraceImportGoal) (client_fuel : ℕ) :
    ℕ → FileIndex → ImportTrace → Outcome ImportTrace
  | 0, _, _ => .error .running
  | fuel + 1, file_index, trace => do
    if trace.gts.isSet .server file_index then return trace
    let trace := { trace with gts := trace.gts.set .server file_index }
    let file ← dev.server_graph.getFileByIndex file_index
    let trace ← dev.enterClient allow_assert goal client_fuel file file_index trace
    let trace ← dev.findError goal file.failed (.server file_index) trace
    (← dev.server_graph.imports file_index).foldlM
      (fun trace edge => traceImportsServer goal client_fuel fuel edge.imported trace) trace

/-- The trace starts from what the client's graph and the result have so far. -/
def traceImports (side : Side) (file_index : FileIndex) (gts : GraphTraceState)
    (goal : TraceImportGoal) : Outcome (GraphTraceState × DevServer) := do
  let trace : ImportTrace := {
    gts := gts
    failures_added := dev.incremental_result.failures_added
    current_css_files := dev.client_graph.current_css_files
    current_chunk_parts := dev.client_graph.current_chunk_parts
    current_chunk_len := dev.client_graph.current_chunk_len }
  let client_fuel := dev.client_graph.bundled_files.length + 1
  let server_fuel := dev.server_graph.bundled_files.length + 1
  let trace ← match side with
    | .client => traceImportsClient allow_assert dev goal client_fuel file_index trace
    | .server =>
      traceImportsServer allow_assert dev goal client_fuel server_fuel file_index trace
  return (trace.gts, { dev with
    client_graph := { dev.client_graph with
      current_css_files := trace.current_css_files
      current_chunk_parts := trace.current_chunk_parts
      current_chunk_len := trace.current_chunk_len }
    incremental_result := { dev.incremental_result with
      failures_added := trace.failures_added } })

/-- An edge there was before, and whether it is still imported. -/
structure TempLookup where
  edge_index : EdgeIndex
  seen : Bool
deriving DecidableEq

/-- What the loops over the import records of a file change. -/
structure Attachment (side : Side) where
  g : IncrementalGraph side
  quick_lookup : List (FileIndex × TempLookup)
  new_imports : Option EdgeIndex
  had_adjusted_edges : Bool
  gts : GraphTraceState

variable {side : Side}

/-- The map from the import list of the last build. -/
def quickLookup (g : IncrementalGraph side) (file_index : FileIndex) :
    ℕ → Option EdgeIndex → List (FileIndex × TempLookup) →
      Outcome (List (FileIndex × TempLookup))
  | _, none, lookup => .ok lookup
  | 0, some _, _ => .error .running
  | fuel + 1, some edge_index, lookup => do
    let dep ← orElsePanic .outOfBounds g.edges[edge_index]?
    assert allow_assert (dep.dependency = file_index)
    if (lookup.lookup dep.imported).isSome then throw .assertion
    quickLookup g file_index fuel dep.next_import
      (lookup ++ [(dep.imported, ⟨edge_index, false⟩)])

/-- The import is still there. -/
def markSeen (imported_file_index : FileIndex) (lookup : List (FileIndex × TempLookup)) :
    List (FileIndex × TempLookup) :=
  lookup.map fun entry =>
    if entry.1 = imported_file_index then (entry.1, { entry.2 with seen := true }) else entry

/-- An edge to an imported file, unless there is one. -/
def attachEdge (file_index imported_file_index : FileIndex) (a : Attachment side) :
    Outcome (Attachment side) :=
  match a.quick_lookup.lookup imported_file_index with
  | some lookup =>
    if lookup.seen then .ok a
    else do
      let g ← a.g.modifyEdge lookup.edge_index fun dep => { dep with next_import := a.new_imports }
      return { a with
        g := g
        quick_lookup := markSeen imported_file_index a.quick_lookup
        new_imports := some lookup.edge_index }
  | none => do
    let first_dep ← orElsePanic .outOfBounds a.g.first_dep[imported_file_index]?
    let (edge, g) ← a.g.newEdge {
      next_import := a.new_imports
      next_dependency := first_dep
      prev_dependency := none
      imported := imported_file_index
      dependency := file_index }
    let g ← match first_dep with
      | some dep => g.modifyEdge dep fun e => { e with prev_dependency := some edge }
      | none => pure g
    return { a with
      g := { g with first_dep := g.first_dep.set imported_file_index (some edge) }
      quick_lookup := a.quick_lookup ++ [(imported_file_index, ⟨edge, true⟩)]
      new_imports := some edge
      had_adjusted_edges := true }

/-- What becomes of one import. -/
def processImportRecord (ctx : HotUpdateContext) (file_index : FileIndex)
    (a : Attachment side) (import_record : ImportRecord) : Outcome (Attachment side) :=
  if import_record.is_unused then .ok a
  else if import_record.isRuntime then .ok a
  else
    match (import_record.source_index.bind (ctx.getCachedIndex side)).or
        (a.g.getFileIndex import_record.path) with
    | none => .ok a
    | some imported_file_index => attachEdge file_index imported_file_index a

/-- The imports of a file. -/
def processChunkImportRecords (ctx : HotUpdateContext) (file_index : FileIndex)
    (index : BundleIndex) (a : Attachment side) : Outcome (Attachment side) := do
  assert allow_assert (ctx.loaders index ≠ .css)
  (ctx.import_records index).foldlM (processImportRecord ctx file_index) a

/-- The file of a source, inserted empty if there is none. -/
def cssFileIndex (cached : Option FileIndex) (key : GraphKey) (kind : FileKind)
    (a : Attachment side) : Outcome (FileIndex × Attachment side) :=
  match cached with
  | some i => .ok (i, a)
  | none => do
    let (i, g) ← insertEmpty a.g key kind
    return (i, { a with g := g })

/-- A record of a CSS file, and whether its own records come next. -/
def processEdgeAttachment (ctx : HotUpdateContext) (file_index : FileIndex)
    (import_record : ImportRecord) (a : Attachment side) : Outcome (Bool × Attachment side) :=
  if import_record.is_unused then .ok (false, a)
  else if import_record.isRuntime then .ok (false, a)
  else
    match import_record.source_index with
    -- external URLs cannot be watched
    | none => .ok (false, a)
    | some source_index => do
      let kind := if (ctx.loaders source_index).isCSS then FileKind.css else .asset
      let (imported_file_index, a) ←
        cssFileIndex (ctx.getCachedIndex side source_index) import_record.path kind a
      if kind = .css && a.gts.isSet side imported_file_index then return (false, a)
      let a := if kind = .css then { a with gts := a.gts.set side imported_file_index } else a
      return (true, ← attachEdge file_index imported_file_index a)

/-- The imports of a style sheet; those that are style sheets are queued. -/
def processCSSRecords (ctx : HotUpdateContext) (file_index : FileIndex) (index : BundleIndex)
    (queue : List BundleIndex) (a : Attachment side) :
    Outcome (List BundleIndex × Attachment side) :=
  (ctx.import_records index).foldlM (fun (queue, a) import_record => do
    let (result, a) ← processEdgeAttachment ctx file_index import_record a
    return (if result then queue ++ import_record.source_index.toList else queue, a)) (queue, a)

/-- The queue is popped at its end. -/
def processCSSQueue (ctx : HotUpdateContext) (file_index : FileIndex) :
    ℕ → List BundleIndex → Attachment side → Outcome (Attachment side)
  | 0, queue, a => if queue.isEmpty then .ok a else .error .running
  | fuel + 1, queue, a =>
    match queue.getLast? with
    | none => .ok a
    | some index => do
      let (queue, a) ← processCSSRecords ctx file_index index queue.dropLast a
      processCSSQueue ctx file_index fuel queue a

/-- The imports of a style sheet and of those it imports. -/
def processCSSChunkImportRecords (ctx : HotUpdateContext) (fuel : ℕ) (file_index : FileIndex)
    (bundler_index : BundleIndex) (a : Attachment side) : Outcome (Attachment side) := do
  assert allow_assert (ctx.loaders bundler_index).isCSS
  let (queue, a) ← processCSSRecords ctx file_index bundler_index [] a
  processCSSQueue ctx file_index fuel queue a

/-- The edges to files that are imported no more. -/
def freeUnseen (lookup : List (FileIndex × TempLookup)) (g : IncrementalGraph side) :
    Outcome (IncrementalGraph side) :=
  lookup.foldlM (fun g entry => do
    if entry.2.seen then return g
    let g ← g.disconnectEdgeFromDependencyList allow_assert entry.2.edge_index
    return g.freeEdge entry.2.edge_index) g

inductive ChunkMode where
  | normal
  | css
deriving DecidableEq

/-- The imports, as the file's kind has them. -/
def processRecords (ctx : HotUpdateContext) (fuel : ℕ) (mode : ChunkMode) (file_index : FileIndex)
    (index : BundleIndex) (a : Attachment side) : Outcome (Attachment side) :=
  match mode with
  | .normal => processChunkImportRecords allow_assert ctx file_index index a
  | .css => processCSSChunkImportRecords allow_assert ctx fuel file_index index a

/-- The import list of the file is made anew, however the function is left; nothing reads its start
before. -/
def processChunkDependencies (ctx : HotUpdateContext) (fuel : ℕ) (side : Side)
    (mode : ChunkMode) (bundle_graph_index : BundleIndex) :
    Outcome (DevServer × HotUpdateContext) := do
  let file_index ← orElsePanic .unresolvedIndex (ctx.getCachedIndex side bundle_graph_index)
  let g := dev.graph side
  let it ← orElsePanic .outOfBounds g.first_import[file_index]?
  let quick_lookup ← quickLookup allow_assert g file_index g.edges.length it []
  if mode = .normal && side = .server && ctx.server_seen_bit_set file_index then
    return (dev.setGraph { g with first_import := g.first_import.set file_index none }, ctx)
  let a : Attachment side := {
    g := g
    quick_lookup := quick_lookup
    new_imports := none
    had_adjusted_edges := dev.incremental_result.had_adjusted_edges
    gts := ctx.gts }
  let a ← processRecords allow_assert ctx fuel mode file_index bundle_graph_index a
  let unseen := a.quick_lookup.take quick_lookup.length
  let g ← freeUnseen allow_assert unseen a.g
  let result := { dev.incremental_result with
    had_adjusted_edges := a.had_adjusted_edges || unseen.any fun entry => !entry.2.seen }
  let dev := { dev.setGraph { g with first_import := g.first_import.set file_index a.new_imports }
    with incremental_result := result }
  let trace ← dev.traceDependencies .stop_at_boundary side file_index file_index ⟨a.gts, result⟩
  return ({ dev with incremental_result := trace.incremental_result },
    { ctx with gts := trace.gts })

/-- What is done to the graphs, each time with the context of some bundle. -/
inductive GraphOp where
  | receiveChunk (side : Side) (ctx : HotUpdateContext) (index : BundleIndex)
      (content : ChunkContent) (is_ssr_graph : Bool)
  | insertCssFileOnServer (ctx : HotUpdateContext) (index : BundleIndex) (abs_path : GraphKey)
  | insertEmpty (side : Side) (abs_path : GraphKey) (kind : FileKind)
  | insertStale (side : Side) (abs_path : GraphKey) (is_ssr_graph is_route : Bool)
  | insertFailure (side : Side) (key : FailureKey) (messages : List (List UInt8))
      (is_ssr_graph : Bool)
  | processChunkDependencies (ctx : HotUpdateContext) (fuel : ℕ) (side : Side) (mode : ChunkMode)
      (bundle_graph_index : BundleIndex)
  | onFileDeleted (side : Side) (abs_path : GraphKey)
  | disconnectAndDeleteFile (side : Side) (file_index : FileIndex)
  | traceImports (side : Side) (file_index : FileIndex) (gts : GraphTraceState)
      (goal : TraceImportGoal)

/-- One operation of an update. -/
def step (dev : DevServer) : GraphOp → Outcome DevServer
  | .receiveChunk .client ctx index content _ =>
    Prod.fst <$> dev.receiveChunkClient allow_assert ctx index content
  | .receiveChunk .server ctx index content is_ssr_graph =>
    Prod.fst <$> dev.receiveChunkServer allow_assert ctx index content is_ssr_graph
  | .insertCssFileOnServer ctx index abs_path =>
    Prod.fst <$> dev.insertCssFileOnServer ctx index abs_path
  | .insertEmpty side abs_path kind =>
    (fun r => dev.setGraph r.2) <$> DevServer.insertEmpty (dev.graph side) abs_path kind
  | .insertStale side abs_path is_ssr_graph is_route =>
    Prod.snd <$> dev.insertStaleExtra allow_assert side abs_path is_ssr_graph is_route
  | .insertFailure side key messages is_ssr_graph =>
    dev.insertFailure allow_assert side key messages is_ssr_graph
  | .processChunkDependencies ctx fuel side mode bundle_graph_index =>
    Prod.fst <$> dev.processChunkDependencies allow_assert ctx fuel side mode bundle_graph_index
  | .onFileDeleted side abs_path =>
    (fun r => dev.setGraph r.1) <$> (dev.graph side).onFileDeleted allow_assert abs_path
  | .disconnectAndDeleteFile side file_index =>
    dev.setGraph <$> (dev.graph side).disconnectAndDeleteFile allow_assert file_index
  | .traceImports side file_index gts goal =>
    Prod.snd <$> dev.traceImports allow_assert side file_index gts goal

/-- A run of operations, up to the first panic. -/
def run (ops : List GraphOp) (dev : DevServer) : Outcome DevServer :=
  ops.foldlM (step allow_assert) dev

end DevServer

end Cruller.Bake
