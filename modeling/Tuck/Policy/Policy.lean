/-
  Policies: rules over glob paths, the decision of the server (`allowed`) and the access
  tester of the web UI (`evaluate`).

  `allowed` is two passes over all rules, so all it depends on is which rules there are
  (`allowed_eq_true_iff`): a matching deny rule wins, and else one rule that matches
  and has the capability is enough. The server keeps the capabilities of a rule as bits, the
  web UI as a list of names; `mem_iff_bits` is the bridge.
-/
import Tuck.Policy.Glob

namespace Tuck

open Tuck.Base List

namespace Policy

/-! ## Capabilities -/

/-- `Capability`: a set of bits. -/
abbrev Capability := Int64

def capRead : Capability := 1
def capWrite : Capability := 2
def capDelete : Capability := 4
def capList : Capability := 8
def capDeny : Capability := 16

/-- `CAPS`: the capabilities by name. -/
inductive CapName where
  | read
  | write
  | delete
  | list
  | deny
  deriving DecidableEq, Repr

namespace CapName

def bit : CapName → Capability
  | read => capRead
  | write => capWrite
  | delete => capDelete
  | list => capList
  | deny => capDeny

end CapName

/-- The bits of a list of names. -/
def capBits (names : List CapName) : Capability := names.foldl (fun c n => c ||| n.bit) 0

theorem bit_and_bit (m n : CapName) : m.bit &&& n.bit ≠ 0 ↔ n = m := by
  cases m <;> cases n <;> decide

theorem or_and_ne_zero (a b c : Capability) : (a ||| b) &&& c ≠ 0 ↔ a &&& c ≠ 0 ∨ b &&& c ≠ 0 := by
  have distrib : (a ||| b) &&& c = (a &&& c) ||| (b &&& c) :=
    Int64.toBitVec_inj.1 (BitVec.and_or_distrib_right (x := a.toBitVec) (y := b.toBitVec))
  rw [distrib, ne_eq, Int64.or_eq_zero_iff, not_and_or]

/-- A name is in the list exactly when its bit is set. -/
theorem mem_iff_bits (names : List CapName) (n : CapName) :
    capBits names &&& n.bit ≠ 0 ↔ n ∈ names := by
  have loop (c : Capability) :
      names.foldl (fun c n => c ||| n.bit) c &&& n.bit ≠ 0 ↔ c &&& n.bit ≠ 0 ∨ n ∈ names := by
    induction names generalizing c with
    | nil => simp
    | cons m names ih =>
      rw [foldl_cons, ih, or_and_ne_zero, bit_and_bit, mem_cons, or_assoc]
  rw [capBits, loop, Int64.zero_and]
  simp

/-! ## The decision of the server -/

/-- `Rule`, without the optional controls of parameters, wrapping and MFA. -/
structure Rule where
  path : Bytes
  capabilities : Capability
  deriving DecidableEq

end Policy

/-- `Policy`, without the template mark of team onboarding. -/
structure Policy where
  name : Bytes
  rules : List Policy.Rule
  inheritable : Bool
  template : Bytes := []
  deriving DecidableEq

namespace Policy

def rootPolicyName : Bytes := ascii "root"

def clusterJoinPolicyName : Bytes := ascii "cluster-join"

def rootPolicy : Policy where
  name := rootPolicyName
  rules := [⟨ascii "**", capRead ||| capWrite ||| capDelete ||| capList⟩]
  inheritable := false

def clusterJoinPolicy : Policy where
  name := clusterJoinPolicyName
  rules := [⟨ascii "sys/cluster", capRead ||| capWrite⟩]
  inheritable := false

/-- The rule matches the path and has a bit of `cap`. -/
def Rule.hits (r : Rule) (path : Bytes) (cap : Capability) : Bool :=
  matchGlob r.path path && r.capabilities &&& cap != 0

def hits (p : Policy) (path : Bytes) (cap : Capability) : Bool :=
  p.rules.any fun r => r.hits path cap

def allowed (policies : List Policy) (path : Bytes) (cap : Capability) : Bool :=
  if policies.any fun p => p.hits path capDeny then false
  else policies.any fun p => p.hits path cap

theorem allowed_eq_true_iff {policies : List Policy} {path : Bytes} {cap : Capability} :
    allowed policies path cap = true ↔
      (∀ p ∈ policies, p.hits path capDeny = false) ∧ ∃ p ∈ policies, p.hits path cap = true := by
  unfold allowed
  split_ifs with hdeny
  · rw [any_eq_true] at hdeny
    obtain ⟨p, hp, hit⟩ := hdeny
    refine ⟨nofun, fun h => ?_⟩
    exact absurd hit (by simp [h.1 p hp])
  · rw [any_eq_true]
    rw [Bool.not_eq_true, any_eq_false] at hdeny
    exact ⟨fun h => ⟨fun p hp => by simpa using hdeny p hp, h⟩, And.right⟩

theorem hits_iff {p : Policy} {path : Bytes} {cap : Capability} :
    p.hits path cap = true ↔ ∃ r ∈ p.rules, r.hits path cap = true := any_eq_true

/-! ## The access tester of the web UI -/

/-- `ParsedRule`, with the path in UTF-16. -/
structure ParsedRule where
  caps : List CapName
  line : Nat
  n : Nat
  path : List UInt16

inductive Kind where
  | allow
  | deny
  | nocap
  | nomatch
  deriving DecidableEq

structure Evaluation where
  allow : Bool
  kind : Kind
  matched : List ParsedRule
  rule : Option ParsedRule

def evaluate (rules : List ParsedRule) (path : List UInt16) (cap : CapName) : Evaluation :=
  let matched := rules.filter fun r => globMatchWeb r.path path
  match matched.find? fun r => CapName.deny ∈ r.caps with
  | some deny => ⟨false, .deny, matched, some deny⟩
  | none =>
      match matched.find? fun r => cap ∈ r.caps with
      | some ok => ⟨true, .allow, matched, some ok⟩
      | none => ⟨false, if matched.isEmpty then .nomatch else .nocap, matched, none⟩

theorem evaluate_allow_iff {rules : List ParsedRule} {path : List UInt16} {cap : CapName} :
    (evaluate rules path cap).allow = true ↔
      (∀ r ∈ rules, globMatchWeb r.path path = true → CapName.deny ∉ r.caps) ∧
        ∃ r ∈ rules, globMatchWeb r.path path = true ∧ cap ∈ r.caps := by
  unfold evaluate
  dsimp only
  split
  · rename_i r hr
    have hmem := mem_of_find?_eq_some hr
    have hdeny := List.find?_some hr
    rw [mem_filter] at hmem
    exact ⟨nofun, fun h => absurd (of_decide_eq_true hdeny) (h.1 r hmem.1 hmem.2)⟩
  · rename_i hnone
    have hdeny : ∀ r ∈ rules, globMatchWeb r.path path = true → CapName.deny ∉ r.caps := by
      simpa [List.find?_eq_none] using hnone
    split
    · rename_i r hr
      have hmem := mem_of_find?_eq_some hr
      have hcap := List.find?_some hr
      rw [mem_filter] at hmem
      exact ⟨fun _ => ⟨hdeny, r, hmem.1, hmem.2, of_decide_eq_true hcap⟩, fun _ => rfl⟩
    · rename_i hnocap
      rw [List.find?_eq_none] at hnocap
      refine ⟨nofun, fun ⟨_, r, hr, hm, hc⟩ => ?_⟩
      exact absurd (decide_eq_true hc) (hnocap r (mem_filter.2 ⟨hr, hm⟩))

/-! ## Their agreement -/

/-- A rule as text, before either side encodes it. -/
structure TextRule where
  caps : List CapName
  line : Nat
  n : Nat
  path : List Char

/-- The rule in the web UI. -/
def TextRule.parsed (r : TextRule) : ParsedRule := ⟨r.caps, r.line, r.n, utf16 r.path⟩

/-- The rule on the server. -/
def TextRule.rule (r : TextRule) : Rule := ⟨utf8 r.path, capBits r.caps⟩

theorem TextRule.rule_hits {r : TextRule} {path : List Char} {cap : CapName} :
    r.rule.hits (utf8 path) cap.bit = true ↔
      globMatchWeb r.parsed.path (utf16 path) = true ∧ cap ∈ r.caps := by
  unfold Rule.hits matchGlob
  rw [Bool.and_eq_true, bne_iff_ne, TextRule.rule, mem_iff_bits, globMatch_utf8]
  rw [TextRule.parsed, globMatchWeb_utf16]

/-- For the rules of one policy, every path and every capability the access tester gives the
    server's answer, and the two matchers agree. -/
theorem evaluate_agrees (name template : Bytes) (inheritable : Bool) (rules : List TextRule)
    (path : List Char) (cap : CapName) :
    (evaluate (rules.map TextRule.parsed) (utf16 path) cap).allow =
        allowed [⟨name, rules.map TextRule.rule, inheritable, template⟩] (utf8 path) cap.bit ∧
      ∀ pat s : List Char, globMatchWeb (utf16 pat) (utf16 s) = globMatch (utf8 pat) (utf8 s) := by
  set p : Policy := ⟨name, rules.map TextRule.rule, inheritable, template⟩
  have hit (c : CapName) : p.hits (utf8 path) c.bit = true ↔
        ∃ r ∈ rules, globMatchWeb r.parsed.path (utf16 path) = true ∧ c ∈ r.caps := by
    simp only [p, hits_iff, mem_map, exists_exists_and_eq_and, TextRule.rule_hits]
  have deny : p.hits (utf8 path) capDeny = false ↔
      ∀ r ∈ rules, globMatchWeb r.parsed.path (utf16 path) = true → CapName.deny ∉ r.caps := by
    rw [← Bool.not_eq_true, show capDeny = CapName.deny.bit from rfl, hit]
    simp only [not_exists, not_and]
  refine ⟨?_, fun pat s => by rw [globMatch_utf8, globMatchWeb_utf16]⟩
  rw [Bool.eq_iff_iff, evaluate_allow_iff, allowed_eq_true_iff, forall_mem_map,
    forall_mem_singleton, deny]
  simp only [mem_map, exists_exists_and_eq_and, mem_singleton, exists_eq_left, hit]
  rfl

end Policy

end Tuck
