import DNSentinel.Policy.Lists
import Mathlib.Data.List.Sort

/-! # Building the trie

`BlocklistTrie::Builder`: rules are collected with a key that spells their labels from the last on, each
after its length. `build` sorts the rules by key and packs them breadth-first: the children of a node are
appended next to each other, and every distinct label is stored once. A range of the sorted rules is the
list of rules in it. Counts and offsets are truncated to the fields they are stored in. -/

namespace DNSentinel.Policy.TrieBuild

open DNSentinel.Types Policy.Lists

/-! ### Rules -/

structure Rule where
  key : List UInt8
  flags : UInt8
  source : UInt16
deriving Repr

structure Builder where
  rules : List Rule := []
  sources : List String := []

/-- A label after its length. -/
def lengthPrefixed (l : Label) : List UInt8 := UInt8.ofNat l.length :: l

/-- The key of the name with these labels, given from the last on. -/
def keyOf (path : List Label) : List UInt8 := path.flatMap lengthPrefixed

def flagsOf : ListAction → Bool → UInt8
  | .block, includeSubdomains => if includeSubdomains then kBlockSubtree else kBlockExact
  | .allow, includeSubdomains => if includeSubdomains then kAllowSubtree else kAllowExact

def sourceId (b : Builder) (source : String) : Builder × UInt16 :=
  match b.sources.findIdx? fun s => s == source with
  | some i => (b, UInt16.ofNat i)
  | none => ({ b with sources := b.sources ++ [source] }, UInt16.ofNat b.sources.length)

def add (b : Builder) (domain : Name) (action : ListAction) (source : String)
    (includeSubdomains : Bool := true) : Builder :=
  let (b, id) := sourceId b source
  { b with rules := b.rules ++ [⟨keyOf domain.labels.reverse, flagsOf action includeSubdomains, id⟩] }

/-! ### Packing -/

/-- A node to be filled in. -/
structure Work where
  node : UInt32
  /-- the rules under this node -/
  rules : List Rule
  /-- how much of their keys this node accounts for -/
  offset : ℕ

/-- The trie being built, and where each label is stored. -/
structure Growing where
  nodes : List Node := [{}]
  labels : List UInt8 := []
  interned : List (Label × UInt32) := []

/-- A rule for this very name. -/
def record (node : Node) (r : Rule) : Node :=
  let first (kinds : UInt8) := r.flags &&& kinds != 0 && node.flags &&& kinds == 0
  { node with
    blockSource := if first (kBlockExact ||| kBlockSubtree) then r.source else node.blockSource
    allowSource := if first (kAllowExact ||| kAllowSubtree) then r.source else node.allowSource
    flags := node.flags ||| r.flags }

/-- `interned.try_emplace`, and the label itself if it is new. -/
def intern (g : Growing) (label : Label) : Growing × UInt32 :=
  match g.interned.lookup label with
  | some offset => (g, offset)
  | none =>
    let offset := UInt32.ofNat g.labels.length
    ({ g with labels := g.labels ++ label, interned := (label, offset) :: g.interned }, offset)

/-- The part of the key that says which child a rule is under, given the length of the label. -/
def chunk (offset : ℕ) (length : UInt8) (r : Rule) : List UInt8 :=
  (r.key.drop offset).take (1 + length.toNat)

/-- The loop over the rules below a node: one child for each run of rules with the same next label;
`fuel` is at least the number of rules. -/
def childrenLoop (offset : ℕ) : ℕ → List Rule → Growing → List Work → Growing × List Work
  | 0, _, g, children => (g, children)
  | _ + 1, [], g, children => (g, children)
  | fuel + 1, r :: rest, g, children =>
    let length := r.key.getD offset 0
    let label := (r.key.drop (offset + 1)).take length.toNat
    let same (r' : Rule) := chunk offset length r' == chunk offset length r
    let (g, labelOffset) := intern g label
    let g := { g with nodes := g.nodes ++ [{ labelOffset, labelLength := length }] }
    let child : Work :=
      ⟨UInt32.ofNat (g.nodes.length - 1), r :: rest.takeWhile same, offset + 1 + length.toNat⟩
    childrenLoop offset fuel (rest.dropWhile same) g (children ++ [child])

/-- One turn of the loop of `build`: fill in a node and append its children. -/
def pack (g : Growing) (w : Work) : Growing × List Work :=
  let here (r : Rule) := r.key.length == w.offset
  let below := w.rules.dropWhile here
  let g := { g with
    nodes := g.nodes.modify w.node.toNat fun n => (w.rules.takeWhile here).foldl record n }
  let first := UInt32.ofNat g.nodes.length
  let (g, children) := childrenLoop w.offset below.length below g []
  ({ g with
      nodes := g.nodes.modify w.node.toNat fun n =>
        { n with firstChild := first, childCount := UInt32.ofNat children.length } }, children)

/-- The loop of `build`; `fuel` is at least the number of nodes to come. -/
def buildLoop : ℕ → Growing → List Work → Growing
  | 0, g, _ => g
  | _ + 1, g, [] => g
  | fuel + 1, g, w :: queue =>
    let (g, children) := pack g w
    buildLoop fuel g (queue ++ children)

/-- `std::stable_sort` by key. -/
def sortRules (rules : List Rule) : List Rule := rules.insertionSort fun a b => ¬ b.key < a.key

/-- Each node but the root accounts for at least one byte of a key. -/
def build (b : Builder) : BlocklistTrie :=
  let rules := sortRules b.rules
  let g := buildLoop (1 + (rules.map fun r => r.key.length).sum) {} [⟨0, rules, 0⟩]
  { nodes := g.nodes, labels := g.labels, sources := b.sources
    ruleCount := g.nodes.countP fun n => n.flags != 0 }

end DNSentinel.Policy.TrieBuild
