import Dnsmasq.Lib.NodeStack
import Dnsmasq.Dhcp.Reply

/-!
The tags of a client as the server keeps them: `dhcp_netid` nodes linked through their own `next`
fields. On a list without a circle `run_tag_if` computes what `runTagIf` computes on the tags alone.
-/
namespace Dnsmasq.Dhcp

open List Lib Function

/-- The owners of `dhcp_netid` nodes. `iface` to `bootp` are local variables of the call
that handles the packet; the others belong to lines of the configuration. -/
inductive TagNode
  | iface
  | dhcpv6
  | cpewan
  | known
  | file
  | bootp
  | vendor (i : ℕ)
  | mac (i : ℕ)
  | dhcpMatch (i : ℕ)
  | nameMatch (i : ℕ)
  | config (i j : ℕ)
  | context (i : ℕ)
  | tagIf (i j : ℕ)
  deriving DecidableEq, Repr

namespace TagNode

def isTagIf : TagNode → Bool
  | tagIf _ _ => true
  | _ => false

/-- Nodes of tag-if rules and of ranges, which are only ever put in front of the list. -/
def isTemporary : TagNode → Bool
  | tagIf _ _ => true
  | context _ => true
  | _ => false

end TagNode

abbrev TagStack := NodeStack TagNode Tag

namespace TagStack

def setNodes (i : ℕ) (e : TagIf) : List (TagNode × Tag) :=
  e.set.zipIdx.map fun t => (.tagIf i t.2, t.1)

/-- The tags of the list. It is not walked, and may be circular, if nothing is looked for. -/
def search (checks : List (List Tag)) (s : TagStack) : Option (List Tag) :=
  match s.labels with
  | some tags => some tags
  | none => if checks.all (·.isEmpty) then some [] else none

/-- The rules from the `i`-th on. There is no result if a circular list is walked. -/
def runTagIfFrom : List TagIf → ℕ → TagStack → Option TagStack
  | [], _, s => some s
  | e :: exprs, i, s => (s.search [e.tag]).bind fun tags =>
    runTagIfFrom exprs (i + 1) (if matchNetidWild e.tag tags then s.pushAll (setNodes i e) else s)

section

variable (exprs : List TagIf) (checks : List (List Tag))

/-- The caller looks for the tags of `checks` in the list that it gets. -/
def runTagIf (s : TagStack) : Option (List Tag × TagStack) :=
  (runTagIfFrom exprs 0 s).bind fun t => (t.search checks).map fun tags => (tags, t.rebase s.head)

/-- `context->netid` is made the head of the list. -/
def linkContext (s : TagStack) (i : ℕ) (tag : Tag) : TagStack := s.push (.context i) tag

/-- The tags that count for the client once the range is known. -/
def runContext (i : ℕ) (tag : Option Tag) (s : TagStack) :
    Option (List Tag × TagStack) :=
  match tag with
  | none => runTagIf exprs checks s
  | some tag => (runTagIf exprs checks (s.linkContext i tag)).map fun r => (r.1, r.2.rebase s.head)

/-- `option_filter` with the node of the range, if it has a tag: the tags without and with it.
`checks` are the tags of the options. -/
def optionFilter (i : ℕ) (tag : Option Tag) (s : TagStack) :
    Option (List Tag × TagStack) :=
  (runTagIf exprs checks s).bind fun r => match tag with
    | none => some r
    | some _ => runContext exprs checks i tag r.2

end

theorem map_fst_setNodes (i : ℕ) (e : TagIf) :
    (setNodes i e).map Prod.fst = (List.range e.set.length).map (TagNode.tagIf i) := by
  rw [setNodes, map_map, range_eq_range', ← zipIdx_map_snd 0 e.set, map_map]
  rfl

@[simp] theorem map_snd_setNodes (i : ℕ) (e : TagIf) : (setNodes i e).map Prod.snd = e.set := by
  simp [setNodes, map_map, comp_def]

theorem mem_setNodes {i : ℕ} {e : TagIf} {x : TagNode} (h : x ∈ (setNodes i e).map Prod.fst) :
    ∃ j, x = .tagIf i j := by
  rw [map_fst_setNodes] at h
  obtain ⟨j, -, rfl⟩ := mem_map.mp h
  exact ⟨j, rfl⟩

theorem nodup_setNodes (i : ℕ) (e : TagIf) : ((setNodes i e).map Prod.fst).Nodup := by
  rw [map_fst_setNodes]
  exact nodup_range.map fun a b h => (TagNode.tagIf.inj h).2

/-- The list of the client is the same afterwards: only temporary nodes were linked. -/
structure Keeps (s t : TagStack) : Prop where
  head : t.head = s.head
  node : ∀ x, x.isTemporary = false → t.next x = s.next x ∧ t.label x = s.label x
  size : s.size ≤ t.size

theorem Keeps.refl (s : TagStack) : Keeps s s := ⟨rfl, fun _ _ => ⟨rfl, rfl⟩, le_rfl⟩

theorem Keeps.trans {s t u : TagStack} (h : Keeps s t) (h' : Keeps t u) : Keeps s u :=
  ⟨h'.head.trans h.head,
    fun x hx => ⟨(h'.node x hx).1.trans (h.node x hx).1, (h'.node x hx).2.trans (h.node x hx).2⟩,
    h.size.trans h'.size⟩

/-- A list of nodes none of which is temporary, with its tags. -/
structure Holds (s : TagStack) (l : List TagNode) (tags : List Tag) : Prop where
  lists : s.Lists l
  lasting : ∀ x ∈ l, x.isTemporary = false
  tags_eq : l.map s.label = tags

variable {s t : TagStack} {l : List TagNode} {tags : List Tag}

theorem Holds.keeps (h : s.Holds l tags) (hk : Keeps s t) : t.Holds l tags where
  lists := h.lists.congr hk.head (fun x hx => (hk.node x (h.lasting x hx)).1) hk.size
  lasting := h.lasting
  tags_eq := h.tags_eq ▸ map_congr_left fun x hx => (hk.node x (h.lasting x hx)).2

theorem Holds.push (h : s.Holds l tags) {x : TagNode} (hx : x ∉ l) (hlast : x.isTemporary = false)
    (tag : Tag) : TagStack.Holds (s.push x tag) (x :: l) (tag :: tags) where
  lists := h.lists.push hx
  lasting := by simpa [hlast] using h.lasting
  tags_eq := by
    rw [map_cons, NodeStack.map_label_push hx, h.tags_eq]
    exact congrArg (· :: tags) (update_self _ _ _)

theorem Holds.pushAll (h : s.Holds l tags) {xs : List (TagNode × Tag)}
    (hnodup : (xs.map Prod.fst).Nodup) (hl : ∀ x ∈ xs.map Prod.fst, x ∉ l)
    (hlast : ∀ x ∈ xs.map Prod.fst, x.isTemporary = false) :
    TagStack.Holds (s.pushAll xs) ((xs.map Prod.fst).reverse ++ l)
    ((xs.map Prod.snd).reverse ++ tags) where
  lists := (h.lists.pushAll hnodup hl).1
  lasting := fun x hx => (mem_append.mp hx).elim (fun hm => hlast x (mem_reverse.mp hm))
    (h.lasting x)
  tags_eq := h.tags_eq ▸ (h.lists.pushAll hnodup hl).2

theorem search_lists (h : s.Lists l) (checks : List (List Tag)) :
    s.search checks = some (l.map s.label) := by
  rw [search, h.labels_eq]

theorem runTagIfFrom_spec (exprs : List TagIf) {i : ℕ} (h : s.Lists l)
    (hl : ∀ i' j', TagNode.tagIf i' j' ∈ l → i' < i) :
    ∃ t l', runTagIfFrom exprs i s = some t ∧ t.Lists l' ∧
      l'.map t.label = Dhcp.runTagIf exprs (l.map s.label) := by
  induction exprs generalizing i s l with
  | nil => exact ⟨s, l, rfl, h, rfl⟩
  | cons e exprs ih =>
    simp only [runTagIfFrom, search_lists h, Option.bind_some]
    by_cases hm : matchNetidWild e.tag (l.map s.label) = true
    · have hnew : ∀ x ∈ (setNodes i e).map Prod.fst, x ∉ l := fun x hx hmem => by
        obtain ⟨j, rfl⟩ := mem_setNodes hx
        exact (hl i j hmem).false
      obtain ⟨hlists, hlabels⟩ := h.pushAll (nodup_setNodes i e) hnew
      have hlow : ∀ i' j', TagNode.tagIf i' j' ∈ ((setNodes i e).map Prod.fst).reverse ++ l →
          i' < i + 1 := fun i' j' hmem => by
        rcases mem_append.mp hmem with hmem | hmem
        · obtain ⟨j, hj⟩ := mem_setNodes (mem_reverse.mp hmem)
          cases hj
          exact Nat.lt_succ_self i
        · exact Nat.lt_succ_of_lt (hl i' j' hmem)
      obtain ⟨t, l', ht, hl', htags⟩ := ih hlists hlow
      refine ⟨t, l', by rwa [if_pos hm], hl', ?_⟩
      rw [htags, hlabels]
      simp [Dhcp.runTagIf, hm]
    rw [if_neg hm]
    obtain ⟨t, l', ht, hl', htags⟩ := ih h fun i' j' hmem => Nat.lt_succ_of_lt (hl i' j' hmem)
    refine ⟨t, l', ht, hl', ?_⟩
    rw [htags]
    simp [Dhcp.runTagIf, hm]

theorem runTagIfFrom_frame {exprs : List TagIf} {i : ℕ} (h : runTagIfFrom exprs i s = some t) :
    (∀ x, x.isTagIf = false → t.next x = s.next x ∧ t.label x = s.label x) ∧ s.size ≤ t.size := by
  induction exprs generalizing i s with
  | nil =>
    cases h
    exact ⟨fun _ _ => ⟨rfl, rfl⟩, le_rfl⟩
  | cons e exprs ih =>
    obtain ⟨tags, -, h⟩ := Option.bind_eq_some_iff.mp h
    split at h
    · obtain ⟨hframe, hsize⟩ := ih h
      refine ⟨fun x hx => ?_, le_trans ?_ hsize⟩
      · have hx' : x ∉ (setNodes i e).map Prod.fst := fun hmem => by
          obtain ⟨j, rfl⟩ := mem_setNodes hmem
          cases hx
        obtain ⟨hnext, hlabel⟩ := NodeStack.pushAll_next_of_notMem (s := s) hx'
        exact ⟨(hframe x hx).1.trans hnext, (hframe x hx).2.trans hlabel⟩
      · rw [NodeStack.pushAll_size]
        exact Nat.le_add_right _ _
    · exact ih h

variable {exprs : List TagIf} {checks : List (List Tag)} {i : ℕ} {tag : Option Tag}

theorem runTagIf_frame (h : runTagIf exprs checks s = some (tags, t)) {x : TagNode}
    (hx : x.isTagIf = false) : t.next x = s.next x ∧ t.label x = s.label x := by
  obtain ⟨u, hu, h⟩ := Option.bind_eq_some_iff.mp h
  obtain ⟨tags', -, heq⟩ := Option.map_eq_some_iff.mp h
  cases heq
  exact (runTagIfFrom_frame hu).1 x hx

theorem isTagIf_of_lasting {x : TagNode} (h : x.isTemporary = false) : x.isTagIf = false := by
  cases x <;> first | rfl | cases h

theorem runTagIf_keeps (h : runTagIf exprs checks s = some (tags, t)) : Keeps s t := by
  refine ⟨?_, fun x hx => runTagIf_frame h (isTagIf_of_lasting hx), ?_⟩
  all_goals
    obtain ⟨u, hu, h⟩ := Option.bind_eq_some_iff.mp h
    obtain ⟨tags', -, heq⟩ := Option.map_eq_some_iff.mp h
    cases heq
  · rfl
  · exact (runTagIfFrom_frame hu).2

theorem keeps_linkContext (s : TagStack) (i : ℕ) (tag : Tag) :
    Keeps s ((s.linkContext i tag).rebase s.head) where
  head := rfl
  node := fun x hx => by
    have hne : x ≠ .context i := fun e => by
      rw [e] at hx
      cases hx
    exact ⟨update_of_ne hne _ _, update_of_ne hne _ _⟩
  size := Nat.le_succ _

theorem runContext_keeps (h : runContext exprs checks i tag s = some (tags, t)) : Keeps s t := by
  cases tag with
  | none => exact runTagIf_keeps h
  | some tag =>
    obtain ⟨⟨tags', u⟩, hu, heq⟩ := Option.map_eq_some_iff.mp h
    cases heq
    have hkeeps := runTagIf_keeps hu
    exact (keeps_linkContext s i tag).trans ⟨rfl, hkeeps.node, hkeeps.size⟩

theorem optionFilter_keeps (h : optionFilter exprs checks i tag s = some (tags, t)) :
    Keeps s t := by
  obtain ⟨⟨tags', u⟩, hu, h⟩ := Option.bind_eq_some_iff.mp h
  cases tag with
  | none =>
    cases h
    exact runTagIf_keeps hu
  | some tag => exact (runTagIf_keeps hu).trans (runContext_keeps h)

theorem runTagIf_lists (exprs : List TagIf) (checks : List (List Tag)) (h : s.Lists l)
    (hl : ∀ x ∈ l, x.isTagIf = false) :
    ∃ t, runTagIf exprs checks s = some (Dhcp.runTagIf exprs (l.map s.label), t) := by
  obtain ⟨t, l', ht, hl', htags⟩ :=
    runTagIfFrom_spec exprs (i := 0) h fun i' j' hmem => by cases hl _ hmem
  exact ⟨t.rebase s.head, by simp [runTagIf, ht, search_lists hl', htags]⟩

section

variable (h : s.Holds l tags) (exprs : List TagIf) (checks : List (List Tag))
include h

theorem Holds.runTagIf :
    ∃ t, TagStack.runTagIf exprs checks s = some (Dhcp.runTagIf exprs tags, t) ∧ Keeps s t := by
  obtain ⟨t, ht⟩ := runTagIf_lists exprs checks h.lists
    fun x hx => isTagIf_of_lasting (h.lasting x hx)
  rw [h.tags_eq] at ht
  exact ⟨t, ht, runTagIf_keeps ht⟩

variable (i : ℕ) (tag : Option Tag)

theorem Holds.runContext : ∃ t, TagStack.runContext exprs checks i tag s =
    some (Dhcp.runTagIf exprs (tag.toList ++ tags), t) := by
  cases tag with
  | none =>
    obtain ⟨t, ht, -⟩ := h.runTagIf exprs checks
    exact ⟨t, ht⟩
  | some tag =>
    have hi : TagNode.context i ∉ l := fun hm => by
      simpa [TagNode.isTemporary] using h.lasting _ hm
    have hlists : (s.linkContext i tag).Lists (.context i :: l) := h.lists.push hi
    have hrules : ∀ x ∈ TagNode.context i :: l, x.isTagIf = false := fun x hx => by
      rcases mem_cons.mp hx with rfl | hx
      · rfl
      · exact isTagIf_of_lasting (h.lasting x hx)
    obtain ⟨t, ht⟩ := runTagIf_lists exprs checks hlists hrules
    have hlabels : (TagNode.context i :: l).map (s.linkContext i tag).label = tag :: tags := by
      rw [map_cons, linkContext, NodeStack.map_label_push hi, h.tags_eq]
      exact congrArg (· :: tags) (update_self _ _ _)
    exact ⟨t.rebase s.head, by simp [TagStack.runContext, ht, hlabels]⟩

theorem Holds.optionFilter : ∃ t, TagStack.optionFilter exprs checks i tag s =
    some (Dhcp.runTagIf exprs (tag.toList ++ tags), t) := by
  obtain ⟨t, ht, hkeeps⟩ := h.runTagIf exprs checks
  cases tag with
  | none => exact ⟨t, by simp [TagStack.optionFilter, ht]⟩
  | some tag =>
    obtain ⟨u, hu⟩ := (h.keeps hkeeps).runContext exprs checks i (some tag)
    exact ⟨u, by simp [TagStack.optionFilter, ht, hu]⟩

end

/-- The walk from the head never ends and meets no temporary node. -/
def Loops (s : TagStack) : Prop := ∃ l, s.Trapped l ∧ ∀ x ∈ l, x.isTemporary = false

theorem Loops.circular (h : s.Loops) : s.Circular := by
  obtain ⟨l, hl, -⟩ := h
  exact hl.circular

theorem Loops.keeps (h : s.Loops) (hk : Keeps s t) : t.Loops := by
  obtain ⟨l, hl, hlast⟩ := h
  exact ⟨l, ⟨hk.head ▸ hl.head, fun y hy => (hk.node y (hlast y hy)).1 ▸ hl.next y hy⟩, hlast⟩

theorem Loops.pushAll (h : s.Loops) (xs : List (TagNode × Tag))
    (hxs : ∀ x ∈ xs.map Prod.fst, x.isTemporary = false) : Loops (s.pushAll xs) := by
  obtain ⟨l, hl, hlast⟩ := h
  refine ⟨_, hl.pushAll xs, fun x hx => ?_⟩
  rcases mem_append.mp hx with hx | hx
  · exact hxs x (mem_reverse.mp hx)
  · exact hlast x hx

theorem Loops.push (h : s.Loops) {x : TagNode} (hx : x.isTemporary = false) (tag : Tag) :
    Loops (s.push x tag) :=
  h.pushAll [(x, tag)] (by simpa using hx)

/-- The second push of a node on a list of the client. -/
theorem Holds.loops_push (h : s.Holds l tags) {x : TagNode} (hx : x ∈ l) (tag : Tag) :
    Loops (s.push x tag) := by
  obtain ⟨l', hl', htrap⟩ := h.lists.trapped_push (b := tag) hx
  exact ⟨l', htrap, fun y hy => h.lasting y (hl' y hy)⟩

theorem Holds.loops_pushAll (h : s.Holds l tags) {xs : List (TagNode × Tag)}
    (hdup : ¬ (xs.map Prod.fst).Nodup) (hlast : ∀ x ∈ xs.map Prod.fst, x.isTemporary = false) :
    Loops (s.pushAll xs) := by
  obtain ⟨l', hl', htrap⟩ := h.lists.trapped_pushAll fun hnew => hdup hnew.1
  exact ⟨l', htrap, fun y hy => (hl' y hy).elim (h.lasting y) (hlast y)⟩

section Circular

variable (h : s.Circular)
include h

theorem search_circular (checks : List (List Tag)) : (s.search checks).isSome ↔
    ∀ check ∈ checks, check = [] := by
  have hall : checks.all (·.isEmpty) = true ↔ ∀ check ∈ checks, check = [] := by simp
  rw [search, h.labels_eq, ← hall]
  cases checks.all (·.isEmpty) <;> simp

theorem runTagIfFrom_circular :
    (runTagIfFrom exprs i s).isSome ↔ ∀ e ∈ exprs, e.tag = [] := by
  induction exprs generalizing i s with
  | nil => simp [runTagIfFrom]
  | cons e exprs ih =>
    have hsearch := search_circular h [e.tag]
    simp only [mem_singleton, forall_eq] at hsearch
    rw [forall_mem_cons, ← hsearch, runTagIfFrom]
    cases s.search [e.tag] with
    | none => simp
    | some tags =>
      simp only [Option.bind_some, Option.isSome_some, true_and]
      refine ih ?_
      split
      · exact h.pushAll _
      · exact h

theorem circular_runTagIfFrom (ht : runTagIfFrom exprs i s = some t) : t.Circular := by
  induction exprs generalizing i s with
  | nil =>
    cases ht
    exact h
  | cons e exprs ih =>
    obtain ⟨tags, -, ht⟩ := Option.bind_eq_some_iff.mp ht
    split at ht
    · exact ih (h.pushAll _) ht
    · exact ih h ht

/-- `run_tag_if` and the searches after it walk the list if a rule or a search has a tag. -/
theorem runTagIf_circular (exprs : List TagIf) (checks : List (List Tag)) :
    (runTagIf exprs checks s).isSome ↔ (∀ e ∈ exprs, e.tag = []) ∧ ∀ check ∈ checks,
    check = [] := by
  rw [← runTagIfFrom_circular (i := 0) h, runTagIf]
  cases ht : runTagIfFrom exprs 0 s with
  | none => simp
  | some t => simp [search_circular (circular_runTagIfFrom h ht)]

theorem runContext_circular : (runContext exprs checks i tag s).isSome ↔
    (∀ e ∈ exprs, e.tag = []) ∧ ∀ check ∈ checks, check = [] := by
  cases tag with
  | none => exact runTagIf_circular h _ _
  | some tag =>
    rw [runContext, Option.isSome_map]
    exact runTagIf_circular (h.push _ _) _ _

end Circular

theorem Loops.optionFilter_isSome (h : s.Loops) : (optionFilter exprs checks i tag s).isSome ↔
    (∀ e ∈ exprs, e.tag = []) ∧ ∀ check ∈ checks, check = [] := by
  have hfirst := runTagIf_circular h.circular exprs checks
  rw [optionFilter]
  cases hr : runTagIf exprs checks s with
  | none => simpa [hr] using hfirst
  | some r =>
    cases tag with
    | none => simpa [hr] using hfirst
    | some tag =>
      rw [Option.bind_some]
      exact runContext_circular (h.keeps (runTagIf_keeps hr)).circular

end TagStack

/-!
Every place of `dhcp_reply` that pushes a node on the tag list or searches it, in the order of the
source. There is no result if a circular list is walked.
-/

inductive MatchType
  | vendor
  | user
  | circuit
  | remote
  | subscriber
  deriving DecidableEq, Repr

/-- A line `dhcp-vendorclass`, `dhcp-userclass`, `dhcp-circuitid`, `dhcp-remoteid` or
`dhcp-subscrid`. -/
structure Vendor where
  matchType : MatchType
  data : Bytes
  enterprise : ℕ := 0
  netid : Tag

structure Mac where
  hwaddr : Bytes
  hwaddrType : ℕ
  mask : BitVec 32 := 0
  netid : Tag

structure NameMatch where
  name : CString
  wildcard : Bool := false
  netid : Tag

/-- The lines of the configuration that set a tag if something in the packet matches. Of
the `dhcp-match` lines only the tags are kept. -/
structure TagLines where
  dhcpVendors : List Vendor := []
  dhcpMacs : List Mac := []
  dhcpMatch : List Tag := []
  dhcpNameMatch : List NameMatch := []

/-- What these lines are compared with: the sub-options of a relay agent, the class options
with the counts of a well formed user class zeroed, and which `dhcp-match` lines match. -/
structure TagOptions where
  ifaceName : Tag
  gatewayId : Bool := false
  agent : MatchType → Option Bytes := fun _ => none
  vendorId : Option Bytes := none
  userClass : Option Bytes := none
  isMatch : ℕ → Bool := fun _ => false
  clientHostname : Option CString := none

def tagCpewan : Tag := [99, 112, 101, 119, 97, 110, 45, 105, 100]

def hasData (data opt : Bytes) : Bool :=
  (List.range (opt.length + 1 - data.length)).any fun i => (opt.drop i).take data.length == data

/-- The nodes of the lines that pass a test, in the order of the configuration. -/
def matching {α : Type*} (node : ℕ → TagNode) (tag : α → Tag) (lines : List α)
    (p : α → ℕ → Bool) : List (TagNode × Tag) :=
  (lines.zipIdx.filter fun x => p x.1 x.2).map fun x => (node x.2, tag x.1)

def Vendor.matchesAgent (v : Vendor) (pkt : TagOptions) : Bool :=
  match v.matchType with
  | .circuit | .remote | .subscriber => pkt.agent v.matchType == some v.data
  | .vendor | .user => false

def Vendor.matchesClass (v : Vendor) (pkt : TagOptions) : Bool :=
  match v.matchType with
  | .vendor => pkt.vendorId.any (hasData v.data)
  | .user => pkt.userClass.any (hasData v.data)
  | .circuit | .remote | .subscriber => false

def Mac.isMatch (m : Mac) (req : Request) : Bool :=
  m.hwaddr.length == req.chaddr.length && (m.hwaddrType == req.htype || m.hwaddrType == 0) &&
    memcmpMasked m.hwaddr req.chaddr m.mask != 0

/-- A wildcard matches every name that starts like it. -/
def NameMatch.isMatch (m : NameMatch) (name : CString) : Bool :=
  m.name.length ≤ name.length && hostnameIsequal (name.take m.name.length) m.name &&
    (name.length == m.name.length || m.wildcard)

namespace TagLines

variable (lines : TagLines)

section

variable (pkt : TagOptions)

/-- The nodes pushed before the server looks for a `dhcp-host` line. -/
def clientNodes (req : Request) : List (TagNode × Tag) :=
  (.iface, pkt.ifaceName) :: (if pkt.gatewayId then [(.cpewan, tagCpewan)] else []) ++
    matching .vendor Vendor.netid lines.dhcpVendors (fun v _ => v.matchesAgent pkt) ++
    matching .mac Mac.netid lines.dhcpMacs (fun m _ => m.isMatch req) ++
    matching .dhcpMatch id lines.dhcpMatch (fun _ i => pkt.isMatch i) ++
    matching .vendor Vendor.netid lines.dhcpVendors (fun v _ => v.matchesClass pkt)

def nameNodes : List (TagNode × Tag) :=
  matching .nameMatch NameMatch.netid lines.dhcpNameMatch fun m _ =>
    pkt.clientHostname.any m.isMatch

/-- The tags of the client before the server looks for a `dhcp-host` line. -/
def clientTags (req : Request) : List Tag :=
  ((lines.clientNodes pkt req).map Prod.snd).reverse

def nameTags : List Tag :=
  ((lines.nameNodes pkt).map Prod.snd).reverse

end

end TagLines

def Request.withTags (req : Request) (tags : List Tag) : Request := { req with tags }

/-- What the code for the message types does with the tags: it puts the node of a range in
front of the list and runs the rules, or sends options. `checks` are the tags that it looks
for in the list. -/
inductive TagUse
  | range (i : ℕ) (checks : List (List Tag))
  | options (i : ℕ) (checks : List (List Tag))

def TagUse.checks : TagUse → List (List Tag)
  | range _ checks => checks
  | options _ checks => checks

namespace Daemon

section

variable (d : Daemon)

/-- The tags that `find_config` may look for. -/
def filters : List (List Tag) := d.dhcpConf.map (·.filter)

def knownTag (context : List ℕ) (clid : Option Bytes) (req : Request)
    (s : TagStack) : Option (Option ℕ × TagStack) :=
  (s.runTagIf d.tagIf d.filters).bind fun (tags, s) =>
    match d.findConfig context clid req.chaddr req.htype none tags with
    | some i => some (some i, s.push .known tagKnown)
    | none => (s.runTagIf d.tagIf d.filters).map fun (tags, s) =>
      (none, if (d.findConfig [] clid req.chaddr req.htype none tags).isSome then
        s.push .known tagKnownOthernet else s)

def namedTag (context : List ℕ) (req : Request) (config : Option ℕ)
    (s : TagStack) : Option (Option ℕ × TagStack) :=
  if config.isSome then some (config, s)
  else match req.hostname with
    | none => some (config, s)
    | some name => (s.runTagIf d.tagIf d.filters).map fun (tags, s) =>
      match d.findConfig context none req.chaddr req.htype (some name) tags with
      | none => (config, s)
      | some i =>
        if (d.dhcpConf[i]?).any fun c => c.clid.isNone && c.hwaddr.isEmpty then
          (some i, s.push .known tagKnown)
        else (config, s)

def configNodes (config : Option ℕ) : List (TagNode × Tag) :=
  match config, d.config config with
  | some i, some c => c.netid.zipIdx.map fun t => (.config i t.2, t.1)
  | _, _ => []

def bootpNodes (config : Option ℕ) (req : Request) : List (TagNode × Tag) :=
  d.configNodes config ++ (req.file.toList.map fun t => (.file, t)) ++ [(.bootp, tagBootp)]

def useTags (s : TagStack) (use : TagUse) : Option TagStack :=
  let tag (i : ℕ) : Option Tag := d.dhcp[i]?.bind (·.netid)
  match use with
  | .range i checks => (s.runContext d.tagIf checks i (tag i)).map (·.2)
  | .options i checks => (s.optionFilter d.tagIf checks i (tag i)).map (·.2)

/-- The nodes pushed after the first search: those of a BOOTP request, or of the name and
the line that is found at last. -/
def messageTags (lines : TagLines) (pkt : TagOptions) (req : Request)
    (arrival : Arrival) (context : List ℕ) (config : Option ℕ) (s : TagStack) : Option TagStack :=
  if req.messageType.getD 0 = 0 ∧ !arrival.pxe then some (s.pushAll (d.bootpNodes config req))
  else (d.namedTag context req config (s.pushAll (lines.nameNodes pkt))).map fun (config, s) =>
    s.pushAll (d.configNodes config)

/-- A packet for the ranges of `context`. `stale` are the links that earlier packets left
behind. -/
def tagPass (lines : TagLines) (pkt : TagOptions) (req : Request)
    (arrival : Arrival) (context : List ℕ) (stale : TagNode → Option TagNode)
    (uses : List TagUse) : Option TagStack :=
  let s : TagStack := ⟨stale, fun _ => [], none, 0⟩
  (d.knownTag context (d.knownClid req) req (s.pushAll (lines.clientNodes pkt req))).bind
    fun (config, s) => (d.messageTags lines pkt req arrival context config s).bind fun s =>
      (TagStack.runTagIf d.tagIf d.dhcpIgnore s).bind fun (_, s) => uses.foldlM d.useTags s

/-- The client has a `dhcp-host` line for another network only, and one without hardware
address and client-id for the name it sends. -/
def KnownTwice (lines : TagLines) (pkt : TagOptions) (req : Request)
    (arrival : Arrival) (context : List ℕ) : Prop :=
  let tags := lines.clientTags pkt req
  let known := d.knownConfig context (d.knownClid req) (req.withTags tags)
  ¬ (req.messageType.getD 0 = 0 ∧ !arrival.pxe) ∧ known.1 = none ∧
    (d.findConfig [] (d.knownClid req) req.chaddr req.htype none (runTagIf d.tagIf tags)).isSome ∧
    (d.namedConfig context req (none, lines.nameTags pkt ++ known.2)).1.isSome

/-- A rule, a `dhcp-ignore` line or a later use looks for a tag. -/
def Searched (uses : List TagUse) : Prop :=
  (∃ e ∈ d.tagIf, e.tag ≠ []) ∨ (∃ check ∈ d.dhcpIgnore, check ≠ []) ∨
    ∃ use ∈ uses, ∃ check ∈ use.checks, check ≠ []

end

instance (d : Daemon) (lines : TagLines) (pkt : TagOptions) (req : Request)
    (arrival : Arrival) (context : List ℕ) :
    Decidable (d.KnownTwice lines pkt req arrival context) :=
  inferInstanceAs (Decidable (_ ∧ _ ∧ _ ∧ _))

end Daemon

end Dnsmasq.Dhcp
