import Cruller.Bake.RoutePattern

/-!
# The tree of routes

How a router keeps its routes, and `insert`, which walks down from a type's root along the parts of
a pattern and adds the routes that are missing. Indices and file ids are numbers; the id of a file
is what the context answers. An index out of range, a slice outside its buffer and a panic are
`none`.
-/

namespace Cruller.Bake.FrameworkRouter

inductive FileKind where
  | page
  | layout
  deriving DecidableEq

/-- A logical route, for which layouts are looked up on after resolving a route. -/
structure Route where
  part : Part
  type : ℕ
  parent : Option ℕ
  first_child : Option ℕ
  prev_sibling : Option ℕ
  next_sibling : Option ℕ
  file_page : Option ℕ := none
  file_layout : Option ℕ := none

/-- What `filePtr` points to. -/
def Route.file (r : Route) : FileKind → Option ℕ
  | .page => r.file_page
  | .layout => r.file_layout

/-- A file of a kind, at the node. -/
def Route.setFile (file_kind : FileKind) (file_id : ℕ) (r : Route) : Route :=
  match file_kind with
  | .page => { r with file_page := some file_id }
  | .layout => { r with file_layout := some file_id }

/-- A plain string with a slash before each part, or parts in their byte format. -/
inductive Pattern where
  | static (route_path : List UInt8)
  | dynamic (data : List UInt8)

/-- `next` of a static pattern. -/
def staticNext (route_path : List UInt8) (offset : ℕ) : Option (Option (Part × ℕ)) :=
  if route_path.length ≤ offset then some none
  else
    let next_i := (indexOfCharPos route_path 0x2F (offset + 1)).getD route_path.length
    (slice route_path (offset + 1) next_i).map fun text =>
      some (.text text, offset + (text.length + 1))

/-- All parts of a static pattern from an offset on, for `n` of them at most. -/
def staticPartsFrom (route_path : List UInt8) : ℕ → ℕ → Option (List Part)
  | 0, _ => none
  | n + 1, offset =>
    (staticNext route_path offset).bind fun
      | none => some []
      | some (part, offset) =>
        (staticPartsFrom route_path n offset).map fun parts => part :: parts

/-- The parts that an encoded pattern says. -/
def Pattern.parts : Pattern → Option (List Part)
  | static route_path => staticPartsFrom route_path (route_path.length + 1) 0
  | dynamic data => partsFrom data (data.length + 1) 0

/-- The bytes of which `effectiveURLHash` takes the hash. -/
def effectiveURL (parts : List Part) : List UInt8 :=
  parts.flatMap fun
    | .text text => 0x2F :: text
    -- param names are not visible
    | .param _ => [0x3A]
    | .catch_all _ => [0x3A, 0x2E]
    | .catch_all_optional _ => [0x3A, 0x3F]
    -- groups are completely unobservable
    | .group _ => []

abbrev max_path_bytes : ℕ := 4096

/-- Panics where the bytes do not fit. -/
def effectiveURLHash (hash : List UInt8 → ℕ) (data : List UInt8) : Option ℕ :=
  (Pattern.dynamic data).parts.bind fun parts =>
    if (effectiveURL parts).length ≤ 2 * max_path_bytes then some (hash (effectiveURL parts))
    else none

/-- The text of a part in a URL. -/
def Part.static : Part → List UInt8
  | text data => 0x2F :: data
  | _ => []

/-- What `scanInner` makes of the parts of a file's path. -/
def patternOf (parts : List Part) : Option Pattern :=
  if parts.countP Part.isParam = 0 then some (.static (parts.flatMap Part.static))
  else (initFromParts parts).map .dynamic

/-- The tree of routes, and the two maps that lead to its leaves. -/
structure Router where
  routes : List Route
  static_routes : List (List UInt8 × ℕ)
  dynamic_routes : List (List UInt8 × ℕ)

/-- One route for each of `n` types. -/
def initEmpty (n : ℕ) : Router where
  routes := (List.range n).map fun ty =>
    { part := .text []
      type := ty
      parent := none
      first_child := none
      prev_sibling := none
      next_sibling := none }
  static_routes := []
  dynamic_routes := []

/-- A child that has the part, or the last of the children. -/
inductive Sought where
  | found (current : ℕ)
  | missing (next : Option ℕ)

/-- The search among the children of a node. -/
def seek (routes : List Route) (current_part : Part) : ℕ → Option ℕ → Option Sought
  | 0, _ => none
  | _ + 1, none => some (.missing none)
  | n + 1, some current =>
    (routes[current]?).bind fun child =>
      if current_part = child.part then some (.found current)
      else
        match child.next_sibling with
        | none => some (.missing (some current))
        | some next => seek routes current_part n (some next)

/-- The node of a pattern, or where the path to it ends. -/
inductive Descent where
  | found (current : ℕ)
  | missing (route_index : ℕ) (next : Option ℕ) (current_part : Part) (rest : List Part)

/-- From the root of a type down the parts. -/
def descend (routes : List Route) : List Part → ℕ → Option Descent
  | [], route_index => some (.found route_index)
  | current_part :: rest, route_index =>
    (routes[route_index]?).bind fun route =>
      (seek routes current_part (routes.length + 1) route.first_child).bind fun
        | .found current => descend routes rest current
        | .missing next => some (.missing route_index next current_part rest)

/-- A new route, to which `attach` links, or its parent where there is none. -/
def newRoute (routes : List Route) (ty : ℕ) (part : Part) (parent : ℕ)
    (attach prev_sibling : Option ℕ) : List Route :=
  let routes' := routes ++
    [{ part := part
       type := ty
       parent := some parent
       first_child := none
       prev_sibling := prev_sibling
       next_sibling := none }]
  match attach with
  | some attach => routes'.modify attach fun r => { r with next_sibling := some routes.length }
  | none => routes'.modify parent fun r => { r with first_child := some routes.length }

/-- Build each part out as another node in the routing graph; `next` is still what it was for the
first new route. -/
def newRoutes (ty : ℕ) (next : Option ℕ) : List Part → List Route → ℕ → List Route × ℕ
  | [], routes, new_route_index => (routes, new_route_index)
  | next_part :: rest, routes, new_route_index =>
    newRoutes ty next rest (newRoute routes ty next_part new_route_index none next) routes.length

/-- The node of a pattern, made if there is none. -/
def routeFor (routes : List Route) (ty : ℕ) (parts : List Part) : Option (List Route × ℕ) :=
  (descend routes parts ty).map fun
    | .found current => (routes, current)
    | .missing route_index next current_part rest =>
      newRoutes ty next rest (newRoute routes ty current_part route_index next next) routes.length

/-- Puts a page's route where matching finds it, or panics: TODO: propagate aliased route error -/
def Router.register (hash : List UInt8 → ℕ) (fr : Router) (new_route_index : ℕ) :
    Pattern → Option Router
  | .static route_path =>
    let key := if route_path = [] then [0x2F] else route_path
    if fr.static_routes.any (·.1 = key) then none
    else some { fr with static_routes := fr.static_routes ++ [(key, new_route_index)] }
  | .dynamic data =>
    (effectiveURLHash hash data).bind fun url_hash =>
      if fr.dynamic_routes.any fun e => effectiveURLHash hash e.1 = some url_hash then none
      else some { fr with dynamic_routes := fr.dynamic_routes ++ [(data, new_route_index)] }

/-- Whether a file has the place already. -/
inductive InsertResult where
  | ok
  | RouteCollision (out_colliding_file_id : ℕ)

/-- Insert a new file, potentially creating a Route for that file. -/
def Router.insert (hash : List UInt8 → ℕ) (fr : Router) (ty : ℕ) (pattern : Pattern)
    (file_kind : FileKind) (file_id : ℕ) : Option (Router × InsertResult) :=
  pattern.parts.bind fun parts =>
    (routeFor fr.routes ty parts).bind fun (routes, new_route_index) =>
      (routes[new_route_index]?).bind fun new_route =>
        match new_route.file file_kind with
        | some existing =>
          -- exact match already exists. Hot-reloading code hits this
          if existing = file_id then some ({ fr with routes := routes }, .ok)
          else some ({ fr with routes := routes }, .RouteCollision existing)
        | none =>
          let fr' := { fr with
            routes := routes.modify new_route_index (Route.setFile file_kind file_id) }
          match file_kind with
          | .page => (fr'.register hash new_route_index pattern).map fun fr => (fr, .ok)
          | .layout => some (fr', .ok)

/-- A call of `insert`. -/
structure Insertion where
  ty : ℕ
  parts : List Part
  file_kind : FileKind
  file_id : ℕ

/-- One insertion after another; `none` at a collision. -/
def Router.scan (hash : List UInt8 → ℕ) (fr : Router) : List Insertion → Option Router
  | [] => some fr
  | ins :: rest =>
    (patternOf ins.parts).bind fun pattern =>
      (fr.insert hash ins.ty pattern ins.file_kind ins.file_id).bind fun (fr, _) =>
        fr.scan hash rest

end Cruller.Bake.FrameworkRouter
