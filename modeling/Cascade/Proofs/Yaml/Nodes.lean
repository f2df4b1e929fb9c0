import Cascade.Proofs.Yaml.Tokens
import Cascade.Yaml.Node

/-! # Reading a document comes to an end

A reader of a node takes a token before it reads a node of the same kind again. How
deep it may go is bounded by the number of tokens that are left, so that a document
never ends for lack of steps: what it can hold without an end is an alias inside the
node that it names. -/
namespace Cascade.Yaml.Reader

/-- From at most `n` tokens on a reader ends, and leaves as many tokens as are given for
its result. -/
def Reads {α : Type} (x : Reader α) (n : Nat) (left : α → Nat) : Prop :=
  ∀ s : Reading, s.rest.length ≤ n → (∀ r, s.failure = some r → r.IsReason) →
    Ends (x s) fun r => r.2.rest.length ≤ left r.1 ∧ ∀ e, r.2.failure = some e → e.IsReason

namespace Reads

variable {α β : Type} {x : Reader α} {f : α → Reader β} {n k : Nat} {left : α → Nat} {last : β → Nat}

theorem pure {a : α} (h : n ≤ left a) : Reads (Pure.pure a) n left :=
  fun _ hs hf => ⟨Nat.le_trans hs h, hf⟩

theorem fail (problem : String) (m : Mark) : Reads (Reader.fail problem m) n left :=
  fun _ _ _ => .malformed problem m

theorem bind (hx : Reads x n left) (hf : ∀ a, Reads (f a) (left a) last) : Reads (x >>= f) n last :=
  fun s hs hfailure => Ends.bind (hx s hs hfailure) fun r hr => hf r.1 r.2 hr.1 hr.2

theorem mono {left' : α → Nat} (hx : Reads x n left) (h : ∀ a, left a ≤ left' a) : Reads x n left' :=
  fun s hs hfailure => (hx s hs hfailure).mono fun _ hr => ⟨Nat.le_trans hr.1 (h _), hr.2⟩

/-- Fewer tokens are fewer than the bound as well. -/
theorem fewer (hx : Reads x n left) (h : k ≤ n) : Reads x k left :=
  fun s hs hfailure => hx s (Nat.le_trans hs h) hfailure

theorem ite {c : Prop} [Decidable c] {y : Reader α} (hx : c → Reads x n left) (hy : ¬ c → Reads y n left) :
    Reads (if c then x else y) n left := by
  split
  · exact hx ‹_›
  · exact hy ‹_›

/-- A token that is looked at is there. -/
theorem peek {f : Token → Reader β} (hf : 0 < n → ∀ t, Reads (f t) n last) : Reads (Reader.peek >>= f) n last := by
  rintro ⟨rest, failure, handles, anchors⟩ hs hfailure
  cases rest with
  | nil =>
    show Ends (.error (failure.getD (.malformed "a missing token" Mark.start))) _
    cases failure with
    | none => exact .malformed _ _
    | some refusal => exact hfailure refusal rfl
  | cons t rest => exact hf (Nat.lt_of_lt_of_le (Nat.succ_pos _) hs) t _ hs hfailure

theorem skip : Reads Reader.skip n fun _ => n - 1 := by
  intro s hs hfailure
  refine ⟨?_, hfailure⟩
  show (s.rest.drop 1).length ≤ n - 1
  rw [List.length_drop]
  omega

theorem next {f : Token → Reader β} (hf : 0 < n → ∀ t, Reads (f t) (n - 1) last) :
    Reads (Reader.next >>= f) n last := by
  rw [Reader.next, bind_assoc]
  refine peek fun hn t => ?_
  rw [bind_assoc]
  refine skip.bind fun _ => ?_
  rw [pure_bind]
  exact hf hn t

/-- What changes no tokens. -/
theorem change {g : Reading → Reading} (hrest : ∀ s, (g s).rest = s.rest) (hfailure : ∀ s, (g s).failure = s.failure) :
    Reads (modify g) n fun _ => n := by
  intro s hs hf
  refine ⟨?_, fun e he => hf e ?_⟩
  · show (g s).rest.length ≤ n
    rwa [hrest]
  · rwa [← hfailure]

theorem state {f : Reading → Reader β} (hf : ∀ s, Reads (f s) n last) : Reads (get >>= f) n last :=
  fun s hs hfailure => hf s s hs hfailure

end Reads

/-! ## Anchors and tags -/

variable {n : Nat}

theorem reads_properties : Reads properties n fun p => if p.start.isSome then n - 1 else n := by
  unfold properties
  refine .peek fun _ first => ?_
  split
  · refine Reads.skip.bind fun _ => .peek fun _ second => ?_
    split
    · exact Reads.skip.bind fun _ => .pure (by simp)
    · exact .pure (by simp)
  · refine Reads.skip.bind fun _ => .peek fun _ second => ?_
    split
    · exact Reads.skip.bind fun _ => .pure (by simp)
    · exact .pure (by simp)
  · exact .pure (by simp)

theorem reads_tagName (tag : Option (Option String × String × Mark)) : Reads (tagName tag) n fun _ => n := by
  unfold tagName
  split
  · exact .pure (Nat.le_refl _)
  · exact .pure (Nat.le_refl _)
  · refine .state fun s => ?_
    split
    · exact .pure (Nat.le_refl _)
    · exact .fail _ _

theorem reads_claimAnchor (anchor : Option String) (m : Mark) : Reads (claimAnchor anchor m) n fun _ => n := by
  unfold claimAnchor
  split
  · exact .pure (Nat.le_refl _)
  · refine .state fun s => .ite (fun _ => .fail _ _) fun _ => ?_
    exact .change (fun _ => rfl) fun _ => rfl

theorem reads_bindAnchor (anchor : Option String) (node : Node) : Reads (bindAnchor anchor node) n fun _ => n := by
  unfold bindAnchor
  split
  · exact .pure (Nat.le_refl _)
  · rename_i name
    have hbind : Reads (modify fun s => { s with anchors := (name, node) :: s.anchors }) n fun _ => n :=
      .change (fun _ => rfl) fun _ => rfl
    exact hbind.bind fun _ => .pure (Nat.le_refl _)

/-- A node with an anchor, which its parts may name. -/
theorem reads_anchored {α : Type} {parts : Reader α} {k : Nat} (hparts : Reads parts n fun _ => k)
    (anchor : Option String) (m : Mark) (node : α → Node) : Reads (do
      claimAnchor anchor m
      bindAnchor anchor (node (← parts))) n fun _ => k :=
  (reads_claimAnchor anchor m).bind fun _ => hparts.bind fun _ => reads_bindAnchor anchor _

/-! ## Nodes -/

/-- What comes next in a flow collection, after a comma unless it is the first. -/
theorem reads_separated {α : Type} {rest : Reader α} {left : α → Nat} (hrest : Reads rest n left)
    (isFirst : Bool) (t : Token) (problem : String) :
    Reads (if (!isFirst) = true then
        if (t.kind == .flowEntry) = true then skip >>= fun _ => rest
        else Reader.fail problem t.start >>= fun _ : PUnit => rest
      else rest) n left := by
  refine .ite (fun _ => .ite (fun _ => ?_) fun _ => ?_) fun _ => hrest
  · exact Reads.skip.bind fun _ => hrest.fewer (Nat.sub_le ..)
  · have hfail : Reads (Reader.fail problem t.start : Reader PUnit) n fun _ => n := .fail _ _
    exact hfail.bind fun _ => hrest

/-- How many steps are enough to read the parts of a document from some number of tokens
on. A node in a flow collection takes at least one of them. -/
structure Enough (fuel : Nat) : Prop where
  node : ∀ n place, 4 * n + 2 ≤ fuel → Reads (node fuel place) n fun _ => if place = .flow then n - 1 else n
  nodeUnless : ∀ n place stops m, 4 * n + 3 ≤ fuel → Reads (nodeUnless fuel place stops m) n fun _ => n
  valueUnless : ∀ n place stops, 4 * n + 1 ≤ fuel → Reads (valueUnless fuel place stops) n fun _ => n
  blockItems : ∀ n, 4 * n + 1 ≤ fuel → Reads (blockItems fuel) n fun _ => n
  flatEntries : ∀ n, 4 * n + 1 ≤ fuel → Reads (flatEntries fuel) n fun _ => n
  blockEntries : ∀ n, 4 * n + 1 ≤ fuel → Reads (blockEntries fuel) n fun _ => n
  flowItems : ∀ n isFirst, 4 * n + 3 ≤ fuel → Reads (flowItems fuel isFirst) n fun _ => n
  flowEntries : ∀ n isFirst, 4 * n + 3 ≤ fuel → Reads (flowEntries fuel isFirst) n fun _ => n

section
variable {fuel : Nat} (h : Enough fuel)
include h

theorem reads_nodeUnless (place : Place) (stops : List TokenKind) (m : Mark) (hf : 4 * n + 3 ≤ fuel + 1) :
    Reads (nodeUnless (fuel + 1) place stops m) n fun _ => n := by
  unfold nodeUnless
  refine .peek fun _ t => .ite (fun _ => .pure (Nat.le_refl _)) fun _ => ?_
  refine (h.node n place (by omega)).mono fun _ => ?_
  split <;> omega

theorem reads_valueUnless (place : Place) (stops : List TokenKind) (hf : 4 * n + 1 ≤ fuel + 1) :
    Reads (valueUnless (fuel + 1) place stops) n fun _ => n := by
  unfold valueUnless
  refine .peek fun hn t => .ite (fun _ => ?_) fun _ => .pure (Nat.le_refl _)
  exact Reads.skip.bind fun _ => (h.nodeUnless (n - 1) place stops _ (by omega)).mono fun _ => Nat.sub_le ..

theorem reads_blockItems (hf : 4 * n + 1 ≤ fuel + 1) : Reads (blockItems (fuel + 1)) n fun _ => n := by
  unfold blockItems
  refine .next fun hn t => ?_
  split
  · refine (h.nodeUnless (n - 1) _ _ _ (by omega)).bind fun item => ?_
    exact (h.blockItems (n - 1) (by omega)).bind fun _ => .pure (Nat.sub_le ..)
  · exact .pure (Nat.sub_le ..)
  · exact .fail _ _

theorem reads_flatEntries (hf : 4 * n + 1 ≤ fuel + 1) : Reads (flatEntries (fuel + 1)) n fun _ => n := by
  unfold flatEntries
  refine .peek fun hn t => .ite (fun _ => Reads.skip.bind fun _ => ?_) fun _ => .pure (Nat.le_refl _)
  refine (h.nodeUnless (n - 1) _ _ _ (by omega)).bind fun item => ?_
  exact (h.flatEntries (n - 1) (by omega)).bind fun _ => .pure (Nat.sub_le ..)

theorem reads_blockEntries (hf : 4 * n + 1 ≤ fuel + 1) : Reads (blockEntries (fuel + 1)) n fun _ => n := by
  unfold blockEntries
  refine .peek fun hn t => ?_
  dsimp only
  split
  · refine Reads.skip.bind fun _ => (h.nodeUnless (n - 1) _ _ _ (by omega)).bind fun key => ?_
    refine (h.valueUnless (n - 1) _ _ (by omega)).bind fun value => ?_
    exact (h.blockEntries (n - 1) (by omega)).bind fun _ => .pure (Nat.sub_le ..)
  · exact Reads.skip.bind fun _ => .pure (Nat.sub_le ..)
  · exact .fail _ _

theorem reads_flowItems (isFirst : Bool) (hf : 4 * n + 3 ≤ fuel + 1) :
    Reads (flowItems (fuel + 1) isFirst) n fun _ => n := by
  unfold flowItems
  refine .peek fun hn t => .ite (fun _ => Reads.skip.bind fun _ => .pure (Nat.sub_le ..)) fun _ => ?_
  refine reads_separated (Reads.peek fun hn t => ?_) isFirst t _
  split
  · refine Reads.skip.bind fun _ => (h.nodeUnless (n - 1) _ _ _ (by omega)).bind fun key => ?_
    refine (h.valueUnless (n - 1) _ _ (by omega)).bind fun value => ?_
    exact (h.flowItems (n - 1) _ (by omega)).bind fun _ => .pure (Nat.sub_le ..)
  · exact Reads.skip.bind fun _ => .pure (Nat.sub_le ..)
  · refine (h.node n .flow (by omega)).bind fun item => ?_
    exact (h.flowItems (n - 1) _ (by omega)).bind fun _ => .pure (Nat.sub_le ..)

theorem reads_flowEntries (isFirst : Bool) (hf : 4 * n + 3 ≤ fuel + 1) :
    Reads (flowEntries (fuel + 1) isFirst) n fun _ => n := by
  unfold flowEntries
  refine .peek fun hn t => .ite (fun _ => Reads.skip.bind fun _ => .pure (Nat.sub_le ..)) fun _ => ?_
  refine reads_separated (Reads.peek fun hn t => ?_) isFirst t _
  split
  · refine Reads.skip.bind fun _ => (h.nodeUnless (n - 1) _ _ _ (by omega)).bind fun key => ?_
    refine (h.valueUnless (n - 1) _ _ (by omega)).bind fun value => ?_
    exact (h.flowEntries (n - 1) _ (by omega)).bind fun _ => .pure (Nat.sub_le ..)
  · exact Reads.skip.bind fun _ => .pure (Nat.sub_le ..)
  · refine (h.node n .flow (by omega)).bind fun key => .peek fun _ after => ?_
    exact (h.flowEntries (n - 1) _ (by omega)).bind fun _ => .pure (Nat.sub_le ..)

theorem reads_node (place : Place) (hf : 4 * n + 2 ≤ fuel + 1) :
    Reads (node (fuel + 1) place) n fun _ => if place = .flow then n - 1 else n := by
  unfold node
  refine .peek fun hn first => ?_
  have hleft : n - 1 ≤ if place = .flow then n - 1 else n := by split <;> omega
  split
  · refine Reads.skip.bind fun _ => .state fun s => ?_
    split
    · exact .pure hleft
    · exact .fail _ _
  · refine reads_properties.bind fun props => (reads_tagName _).bind fun tag => .peek fun hk token => ?_
    -- an anchor or a tag has been taken by now, if there is one
    generalize hkn : (if props.start.isSome then n - 1 else n) = k at hk ⊢
    have hk' : k ≤ n := by split at hkn <;> omega
    have hpred : k - 1 ≤ if place = .flow then n - 1 else n := by omega
    split
    · exact (reads_anchored (h.flatEntries k (by omega)) _ _ _).mono fun _ => hk'
    · exact Reads.skip.bind fun _ => (reads_anchored (.pure (Nat.le_refl _)) _ _ _).mono fun _ => hpred
    · exact (reads_anchored (Reads.skip.bind fun _ => h.flowItems (k - 1) _ (by omega)) _ _ _).mono fun _ => hpred
    · exact (reads_anchored (Reads.skip.bind fun _ => h.flowEntries (k - 1) _ (by omega)) _ _ _).mono fun _ => hpred
    · exact (reads_anchored (Reads.skip.bind fun _ => h.blockItems (k - 1) (by omega)) _ _ _).mono fun _ => hpred
    · exact (reads_anchored (Reads.skip.bind fun _ => h.blockItems (k - 1) (by omega)) _ _ _).mono fun _ => hpred
    · exact (reads_anchored (Reads.skip.bind fun _ => h.blockEntries (k - 1) (by omega)) _ _ _).mono fun _ => hpred
    · exact (reads_anchored (Reads.skip.bind fun _ => h.blockEntries (k - 1) (by omega)) _ _ _).mono fun _ => hpred
    · refine .ite (fun hsome => ?_) fun _ => .fail _ _
      rw [if_pos hsome] at hkn
      exact (reads_anchored (.pure (Nat.le_refl _)) _ _ _).mono fun _ => by omega

end

theorem enough : ∀ fuel, Enough fuel
  | 0 => by constructor <;> omega
  | fuel + 1 =>
    have h := enough fuel
    { node := fun _ => reads_node h
      nodeUnless := fun _ => reads_nodeUnless h
      valueUnless := fun _ => reads_valueUnless h
      blockItems := fun _ => reads_blockItems h
      flatEntries := fun _ => reads_flatEntries h
      blockEntries := fun _ => reads_blockEntries h
      flowItems := fun _ => reads_flowItems h
      flowEntries := fun _ => reads_flowEntries h }

/-! ## Documents -/

variable {fuel : Nat}

theorem reads_directives (versioned : Bool) (handles : List (String × String)) (hf : n < fuel) :
    Reads (directives fuel versioned handles) n fun _ => n := by
  induction fuel generalizing n versioned handles with
  | zero => omega
  | succ fuel ih =>
    unfold directives
    refine .peek fun hn t => ?_
    -- a directive is taken before the next one is read
    have hrest (versioned : Bool) (handles : List (String × String)) :
        Reads (directives fuel versioned handles) (n - 1) fun _ => n :=
      (ih versioned handles (by omega)).mono fun _ => Nat.sub_le ..
    split
    · exact Reads.skip.bind fun _ => .ite (fun _ => .fail _ _) fun _ => .ite (fun _ => .fail _ _) fun _ => hrest _ _
    · exact Reads.skip.bind fun _ => .ite (fun _ => .fail _ _) fun _ => hrest _ _
    · exact Reads.skip.bind fun _ => hrest _ _
    · exact .pure (Nat.le_refl _)

theorem reads_documentStart (hf : n < fuel) : Reads (documentStart fuel) n fun _ => n - 1 := by
  unfold documentStart
  refine (reads_directives _ _ hf).bind fun handles => .next fun _ t => .ite (fun _ => ?_) fun _ => .fail _ _
  exact .change (fun _ => rfl) fun _ => rfl

theorem reads_dropDocumentEnds : ∀ fuel n, Reads (dropDocumentEnds fuel) n fun _ => n
  | 0, _ => .pure (Nat.le_refl _)
  | fuel + 1, n => by
    unfold dropDocumentEnds
    refine .peek fun _ t => .ite (fun _ => Reads.skip.bind fun _ => ?_) fun _ => .pure (Nat.le_refl _)
    exact (reads_dropDocumentEnds fuel (n - 1)).mono fun _ => Nat.sub_le ..

theorem reads_document (hf : 4 * n + 2 ≤ fuel) : Reads (document fuel) n fun _ => n := by
  unfold document
  refine .peek fun hn first => .ite (fun _ => .pure (Nat.le_refl _)) fun _ => ?_
  have hroot {k : Nat} (hk : k ≤ n) : Reads (node fuel .block) k fun _ => n :=
    ((enough fuel).node k .block (by omega)).mono fun _ => hk
  -- what follows the root, whichever way it was read
  have hafter (root : Node) : Reads (do
      dropDocumentEnds fuel
      let t ← peek
      if (t.kind == .streamEnd) = true then return some root
      else
        documentStart fuel
        fail "a second document" t.start) n fun _ => n := by
    refine (reads_dropDocumentEnds fuel n).bind fun _ => .peek fun _ t => ?_
    refine .ite (fun _ => .pure (Nat.le_refl _)) fun _ => ?_
    exact (reads_documentStart (by omega)).bind fun _ => .fail _ _
  refine .ite (fun _ => ?_) fun _ => ?_
  · refine (reads_documentStart (by omega)).bind fun _ => .peek fun _ t => .ite (fun _ => ?_) fun _ => ?_
    · have hempty : Reads (Pure.pure (Node.empty t.start)) (n - 1) fun _ => n := .pure (Nat.sub_le ..)
      exact hempty.bind hafter
    · exact (hroot (Nat.sub_le ..)).bind hafter
  · have husual : Reads (modify fun s => { s with handles := usualHandles }) n fun _ => n :=
      .change (fun _ => rfl) fun _ => rfl
    exact husual.bind fun _ => (hroot (Nat.le_refl _)).bind hafter

end Reader

/-- The steps that a document is read with are enough for its tokens. -/
theorem Node.ends_ofTokens {tokens : Tokens} (h : ∀ r, tokens.failure = some r → r.IsReason) :
    Ends (Node.ofTokens tokens) fun _ => True := by
  have hread : Reader.Reads (Reader.document (4 * tokens.items.length + 16)) tokens.items.length
      fun _ => tokens.items.length := Reader.reads_document (by omega)
  exact (hread ⟨tokens.items, tokens.failure, [], []⟩ (Nat.le_refl _) h).bind fun _ _ => trivial

end Cascade.Yaml
