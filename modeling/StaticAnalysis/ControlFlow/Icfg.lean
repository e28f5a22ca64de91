import StaticAnalysis.CallGraph.Basic
import StaticAnalysis.ControlFlow.Cfg

/-!
# Interprocedural control-flow graphs

An `Icfg N M` joins the control-flow graphs of several methods. Its edges have a kind and are kept
twice, by source and by target.

* `Icfg.addCfg`, `Icfg.addEdge` — the operations that build a graph.
* `Icfg.build` — links the graphs of all reachable methods along the edges of a call graph. A call
  with known callees leads to their entries, and their exits lead to the nodes behind the call; a
  call without keeps its ordinary edges.
-/

namespace StaticAnalysis

/-- The kinds of interprocedural edges. -/
inductive EdgeKind where
  /-- Inside a method. -/
  | normal
  /-- From a call past its callees, for what is local to the caller. -/
  | callToReturn
  /-- From a call to the entry of a callee. -/
  | call
  /-- From the exit of a callee to a node behind the call. -/
  | ret
  /-- An edge of some other kind, which no rule knows. -/
  | other (label : String)
deriving DecidableEq

namespace EdgeKind

def label : EdgeKind → String
  | normal => "NORMAL"
  | callToReturn => "CALL_TO_RETURN"
  | call => "CALL"
  | ret => "RETURN"
  | other label => label

/-- The kind with a given label. -/
def ofLabel (s : String) : EdgeKind :=
  match s with
  | "NORMAL" => normal
  | "CALL_TO_RETURN" => callToReturn
  | "CALL" => call
  | "RETURN" => ret
  | _ => other s

end EdgeKind

/-- An interprocedural edge. All but ordinary edges know their call, and those to and from a callee
know the callee. -/
structure IcfgEdge (N M : Type) where
  kind : EdgeKind
  source : N
  target : N
  callSite : Option N := none
  callee : Option M := none
deriving DecidableEq

/-- An interprocedural control-flow graph over nodes `N` and methods `M`. -/
structure Icfg (N M : Type) where
  entries : List M
  cfgs : Table M (Cfg N) := {}
  containers : Table N M := {}
  inEdges : Table N (List (IcfgEdge N M)) := {}
  outEdges : Table N (List (IcfgEdge N M)) := {}

namespace Icfg

variable {N M : Type} [DecidableEq N] [DecidableEq M]

/-- Adds the graph of a method with all its nodes, but without its edges. -/
def addCfg (g : Icfg N M) (m : M) (cfg : Cfg N) : Icfg N M :=
  { g with
    cfgs := g.cfgs.set m cfg
    containers := cfg.nodes.foldl (fun t n => t.set n m) g.containers }

def addEdge (g : Icfg N M) (e : IcfgEdge N M) : Icfg N M :=
  { g with
    outEdges := g.outEdges.push e.source e
    inEdges := g.inEdges.push e.target e }

def nodes (g : Icfg N M) : List N := g.containers.keys

def entryOf? (g : Icfg N M) (m : M) : Option N := (g.cfgs.get? m).map Cfg.entry

def exitOf? (g : Icfg N M) (m : M) : Option N := (g.cfgs.get? m).map Cfg.exit

def containerOf? (g : Icfg N M) (n : N) : Option M := g.containers.get? n

def edgesInto (g : Icfg N M) (n : N) : List (IcfgEdge N M) := g.inEdges.getD n []

def edgesOutOf (g : Icfg N M) (n : N) : List (IcfgEdge N M) := g.outEdges.getD n []

def succsOf (g : Icfg N M) (n : N) : List N := distinct ((g.edgesOutOf n).map IcfgEdge.target)

def predsOf (g : Icfg N M) (n : N) : List N := distinct ((g.edgesInto n).map IcfgEdge.source)

/-- The callees on the call edges that leave a node. -/
def calleesOf (g : Icfg N M) (n : N) : List (Option M) :=
  distinct (((g.edgesOutOf n).filter fun e => e.kind = .call).map IcfgEdge.callee)

/-- The entry nodes of the entry methods. Each of these must have a graph. -/
def entryNodes (name : M → String) (g : Icfg N M) : Except Fault (List N) :=
  distinct <$> g.entries.mapM fun m =>
    match g.entryOf? m with
    | some n => .ok n
    | none => .error (.notFound (name m))

/-! ### Linking -/

/-- The edges that leave a node of a control-flow graph whose known callees are given. -/
def linksOf (g : Icfg N M) (cfg : Cfg N) (n : N) (callees : List M) : List (IcfgEdge N M) :=
  match callees with
  | [] => (cfg.succsOf n).map fun next => ⟨.normal, n, next, none, none⟩
  | _ =>
    ((cfg.succsOf n).flatMap fun next =>
      ⟨.callToReturn, n, next, some n, none⟩ :: callees.filterMap fun m =>
        (g.exitOf? m).map fun exit => ⟨.ret, exit, next, some n, some m⟩)
      ++ callees.filterMap fun m =>
        (g.entryOf? m).map fun entry => ⟨.call, n, entry, some n, some m⟩

/-- Links the control-flow graphs of methods, where `calleesAt` gives the callees of a node. -/
def link (methods : List M) (cfgOf : M → Cfg N) (calleesAt : N → List M) (g : Icfg N M) :
    Icfg N M :=
  let withNodes := methods.foldl (fun g m => g.addCfg m (cfgOf m)) g
  let links := methods.flatMap fun m =>
    let cfg := (withNodes.cfgs.get? m).getD (cfgOf m)
    cfg.nodes.flatMap fun n =>
      withNodes.linksOf cfg n ((calleesAt n).filter withNodes.cfgs.contains)
  links.foldl addEdge withNodes

/-- Compares methods by signature. -/
def bySignature (m n : Method) : Ordering := compareTexts m.signature n.signature

instance : Std.TransCmp bySignature := inferInstanceAs (Std.TransCmp (compareOn Method.signature))

/-- The interprocedural graph of the reachable methods of a call graph. Methods and callees are
taken in the order of their signatures. -/
def build (graph : CallGraph Stmt Method) (cfgOf : Method → Cfg Node) : Icfg Node Method :=
  link (sortBy bySignature graph.reachable) cfgOf
    (fun n => match n with
      | .stmt s => if s.isCall then sortBy bySignature (graph.calleesOf s) else []
      | _ => [])
    { entries := sortBy bySignature graph.entries }

end Icfg

end StaticAnalysis
