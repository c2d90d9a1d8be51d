import DNSentinel.Types
import Mathlib.Order.Basic

/-! # Block and allow lists

The frozen trie of `blocklist_trie.cpp` with its lookup, the part of `Blocklists` that queries read,
and `cname_check.cpp`. An index past the end of a vector does not occur in a trie that was built; a
default stands for it here. -/

namespace DNSentinel.Policy.Lists

open DNSentinel.Types

/-! ### The trie -/

def kBlockExact : UInt8 := 1
def kBlockSubtree : UInt8 := 2
def kAllowExact : UInt8 := 4
def kAllowSubtree : UInt8 := 8

inductive ListAction where
  | block
  | allow
deriving Repr, DecidableEq

structure TrieLookupResult where
  matched : Bool := false
  action : ListAction := .block
  rule : List UInt8 := []
  source : String := ""
deriving Repr, DecidableEq

structure Node where
  labelOffset : UInt32 := 0
  labelLength : UInt8 := 0
  flags : UInt8 := 0
  blockSource : UInt16 := 0
  allowSource : UInt16 := 0
  firstChild : UInt32 := 0
  childCount : UInt32 := 0
deriving Repr, Inhabited

structure BlocklistTrie where
  nodes : List Node := []
  labels : List UInt8 := []
  sources : List String := []
  /-- nodes with a rule -/
  ruleCount : ℕ := 0

/-- Children are ordered by label length, then bytes. -/
def labelLess (a b : Label) : Bool :=
  if a.length ≠ b.length then decide (a.length < b.length) else decide (a < b)

/-- `std::lower_bound` over `len` positions from `first`; `fuel` is at least `len`. -/
def lowerBound (less : ℕ → Bool) : ℕ → ℕ → ℕ → ℕ
  | 0, first, _ => first
  | fuel + 1, first, len =>
    if len = 0 then first
    else
      let half := len / 2
      if less (first + half) then lowerBound less fuel (first + half + 1) (len - half - 1)
      else lowerBound less fuel first half

/-- The deepest rules met so far: depth and source. -/
structure Found where
  block : Option (ℕ × UInt16) := none
  allow : Option (ℕ × UInt16) := none

/-- The rules that end at a node, for a name that ends there (`wholeName`) or goes on. -/
def visit (node : Node) (depth : ℕ) (wholeName : Bool) (found : Found) : Found :=
  let ends (subtree exact : UInt8) :=
    node.flags &&& subtree != 0 || (wholeName && node.flags &&& exact != 0)
  { block := if ends kBlockSubtree kBlockExact then some (depth, node.blockSource) else found.block
    allow := if ends kAllowSubtree kAllowExact then some (depth, node.allowSource) else found.allow }

namespace BlocklistTrie

def labelOf (t : BlocklistTrie) (node : Node) : Label :=
  (t.labels.drop node.labelOffset.toNat).take node.labelLength.toNat

def child (t : BlocklistTrie) (parent : Node) (label : Label) : Option Node :=
  let first := parent.firstChild.toNat
  let count := parent.childCount.toNat
  let it := lowerBound (fun i => labelLess (t.labelOf (t.nodes.getD i default)) label) count first count
  let node := t.nodes.getD it default
  if it ≠ first + count ∧ t.labelOf node = label then some node else none

/-- The loop of `lookup`, over the labels from the last on. -/
def lookupLoop (t : BlocklistTrie) : List Label → ℕ → Node → Found → Found
  | [], depth, node, found => visit node depth true found
  | label :: rest, depth, node, found =>
    let found := visit node depth false found
    match t.child node label with
    | none => found
    | some node => lookupLoop t rest (depth + 1) node found

/-- Allow rules beat block rules at any depth. -/
def lookup (t : BlocklistTrie) (domain : Name) : TrieLookupResult :=
  let result (action : ListAction) (depth : ℕ) (source : UInt16) : TrieLookupResult :=
    let rule := (domain.labels.drop (domain.labels.length - depth)).foldl Name.appendLabel {}
    { matched := true, action, rule := rule.toString, source := t.sources.getD source.toNat "" }
  match t.nodes with
  | [] => {}
  | root :: _ =>
    match lookupLoop t domain.labels.reverse 0 root {} with
    | ⟨_, some (depth, source)⟩ => result .allow depth source
    | ⟨some (depth, source), none⟩ => result .block depth source
    | ⟨none, none⟩ => {}

/-- The lists block `name`. -/
def blocks (t : BlocklistTrie) (name : Name) : Bool :=
  (t.lookup name).matched && (t.lookup name).action == .block

end BlocklistTrie

/-! ### The lists in use -/

inductive BlockResponse where
  | nullIp
  | nxDomain
deriving Repr, DecidableEq

structure ListsConfig where
  blocklists : List String := []
  allowlists : List String := []
  response : BlockResponse := .nullIp
  blockTtl : UInt32 := 60
  checkCnameChain : Bool := true
  reloadCheckSeconds : UInt32 := 60

structure Blocklists where
  config : ListsConfig := {}
  trie : BlocklistTrie := {}

def Blocklists.lookup (l : Blocklists) (name : Name) : TrieLookupResult := l.trie.lookup name

/-! ### The CNAME chain of an answer -/

def cnameTarget : RData → Option Name
  | .cname target => some target
  | _ => none

/-- The target of the first CNAME in `answers` owned by `current`. -/
def nextHop (answers : List RR) (current : Name) : Option Name :=
  match answers.find? fun r =>
    r.type == RRType.CNAME && r.name == current && (cnameTarget r.rdata).isSome with
  | some r => cnameTarget r.rdata
  | none => none

/-- The loop of `cname_chain`: it ends where the records do, or at a name seen before. -/
def cnameChainLoop (qname : Name) (answers : List RR) : ℕ → Name → List Name → List Name
  | 0, _, chain => chain
  | fuel + 1, current, chain =>
    match nextHop answers current with
    | none => chain
    | some target =>
      if target == qname || chain.any fun n => n == target then chain
      else cnameChainLoop qname answers fuel target (chain ++ [target])

/-- `cname_chain`. Each turn but the last adds the target of another record. -/
def cnameChain (qname : Name) (answers : List RR) : List Name :=
  cnameChainLoop qname answers (answers.length + 1) qname []

structure CloakedName where
  chain : List Name
  lookup : TrieLookupResult

/-- The loop of `find_cloaked`; `passed` are the names before `rest`. -/
def findCloakedLoop (trie : BlocklistTrie) : List Name → List Name → Option CloakedName
  | _, [] => none
  | passed, name :: rest =>
    if trie.blocks name then some ⟨passed ++ [name], trie.lookup name⟩
    else findCloakedLoop trie (passed ++ [name]) rest

/-- The first hop of `qname`'s CNAME chain that `trie` blocks, if any. -/
def findCloaked (qname : Name) (answers : List RR) (trie : BlocklistTrie) : Option CloakedName :=
  if !answers.any fun r => r.type == RRType.CNAME then none
  else findCloakedLoop trie [qname] (cnameChain qname answers)

end DNSentinel.Policy.Lists
