import LiquidTemplate.Proofs.Nesting.Move

/-!
# Derivation trees

`SequenceTree` reads the nesting grammar on tokens and gives the nodes along with it: it relates a
run of tokens to the nodes it stands for. A parse builds exactly these nodes. One direction runs the
parse along the derivation (`SequenceTree.reach`); the other finds a derivation that has got as far
as the parse has, with one open rule for each open construct (`Pending`), and carries it from move
to move.
-/

namespace LiquidTemplate.Nesting

mutual

/-- A run of items and its nodes. -/
inductive SequenceTree : List Token → List Node → Prop
  | empty : SequenceTree [] []
  | cons {ts us : List Token} {ns ms : List Node} :
    ItemTree ts ns → SequenceTree us ms → SequenceTree (ts ++ us) (ns ++ ms)

/-- The tokens of an item and its node; only blank text has none. -/
inductive ItemTree : List Token → List Node → Prop
  | blank {t : Token} {value : Text} :
    t.item = .text value → Text.AllBlank value → ItemTree [t] []
  | leaf {t : Token} {n : Node} : t.leafNode? = some n → ItemTree [t] [n]
  | element {t t' : Token} {head : Head} {name : TagName} {gap : Text} {ts : List Token}
      {ns : List Node} :
    t.item = .startTag head → head.opens = true → SequenceTree ts ns →
      t'.item = .endTag name gap → head.name.key = name.key →
      ItemTree (t :: ts ++ [t']) [.ofElement t.start head ns t'.stop]
  | block {t t' : Token} {inner inner' : Text} {ts : List Token} {branches : List Branch} :
    t.item = .tag inner → Keyword.roleOf (Tag.ofInner inner).name = .opensBlock →
      BranchTrees (Tag.ofInner inner).name none t.stop ts t'.start branches →
      t'.item = .tag inner' →
      Keyword.roleOf (Tag.ofInner inner').name = .closes (Tag.ofInner inner).name →
      ItemTree (t :: ts ++ [t'])
        [.block (.ofInner inner) branches (Tag.ofInner inner').trims ⟨t.start, t'.stop⟩]

/-- Branches of the block `name`, from one with this label and start up to the end tag at `stop`.
A branch stops where the tag of the next one starts. -/
inductive BranchTrees : Text → Option Tag → Nat → List Token → Nat → List Branch → Prop
  | last {name : Text} {label : Option Tag} {start stop : Nat} {ts : List Token} {ns : List Node} :
    SequenceTree ts ns → BranchTrees name label start ts stop [.mk label ns ⟨start, stop⟩]
  | more {name : Text} {label : Option Tag} {start stop : Nat} {t : Token} {inner : Text}
      {ts us : List Token} {ns : List Node} {branches : List Branch} :
    SequenceTree ts ns → t.item = .tag inner →
      Keyword.isBranchOf name (Tag.ofInner inner).name = true →
      BranchTrees name (some (.ofInner inner)) t.start us stop branches →
      BranchTrees name label start (ts ++ t :: us) stop (.mk label ns ⟨start, t.start⟩ :: branches)

end

theorem SequenceTree.append : ∀ {ts us : List Token} {ns ms : List Node},
    SequenceTree ts ns → SequenceTree us ms → SequenceTree (ts ++ us) (ns ++ ms)
  | _, _, _, _, .empty, hu => hu
  | _, _, _, _, .cons hi ht, hu => by
    rw [List.append_assoc, List.append_assoc]
    exact .cons hi (ht.append hu)

theorem ItemTree.sequence {ts : List Token} {ns : List Node} (h : ItemTree ts ns) :
    SequenceTree ts ns := by
  simpa using SequenceTree.cons h .empty

/-! ## A parse follows a derivation -/

mutual

/-- A parse adds the nodes of a sequence to what it has. -/
theorem SequenceTree.reach : ∀ {ts : List Token} {ns : List Node}, SequenceTree ts ns →
    ∀ s : State, s.reach ts = .ok ⟨ns.reverse ++ s.siblings, s.frames⟩
  | _, _, .empty, s => rfl
  | _, _, .cons hi ht, s => by
    rw [State.reach_append, hi.reach s]
    simp only [ht.reach, List.reverse_append, List.append_assoc]

theorem ItemTree.reach : ∀ {ts : List Token} {ns : List Node}, ItemTree ts ns →
    ∀ s : State, s.reach ts = .ok ⟨ns.reverse ++ s.siblings, s.frames⟩
  | _, _, .blank ht hv, s => State.reach_cons_of_move (.blank ht hv) []
  | _, _, .leaf hn, s => State.reach_cons_of_move (.leaf hn) []
  | _, _, .element ht ho hts ht' hk, s => by
    rw [List.cons_append, State.reach_cons_of_move (.openElement ht ho), State.reach_append,
      hts.reach]
    refine (State.reach_cons_of_move (.closeElement ht' hk) []).trans ?_
    simp [State.reach, State.push]
  | _, _, .block (t := t) ht hr hts ht' hr', s => by
    rw [List.cons_append, State.reach_cons_of_move (.openBlock ht hr), State.reach_append]
    obtain ⟨siblings, done, label, start, h, hb⟩ := hts.reach rfl s.siblings s.frames t.start []
    simp only [State.push, h]
    refine (State.reach_cons_of_move (.closeBlock ht' hr') []).trans ?_
    rw [hb]
    rfl

/-- Behind its branches a block has all of them but the last, which has its nodes. -/
theorem BranchTrees.reach : ∀ {name : Text} {label : Option Tag} {start stop : Nat}
    {ts : List Token} {branches : List Branch}, BranchTrees name label start ts stop branches →
    ∀ {block : Tag}, block.name = name → ∀ (outer : List Node) (frames : List Frame)
      (first : Nat) (done : List Branch),
    ∃ siblings done' label' start',
      State.reach ⟨[], ⟨.block first block done label start, outer⟩ :: frames⟩ ts =
        .ok ⟨siblings, ⟨.block first block done' label' start', outer⟩ :: frames⟩ ∧
      (.mk label' siblings.reverse ⟨start', stop⟩ :: done').reverse = done.reverse ++ branches
  | _, _, _, _, _, _, .last hts, block, hn, outer, frames, first, done => by
    refine ⟨_, _, _, _, hts.reach _, ?_⟩
    simp
  | _, _, _, _, _, _, .more hts ht hb hbs, block, hn, outer, frames, first, done => by
    rw [State.reach_append, hts.reach]
    simp only [State.reach_cons_of_move (.startBranch ht (hn ▸ hb))]
    obtain ⟨siblings, done', label', start', h, hd⟩ := hbs.reach hn outer frames first
      (.mk _ _ ⟨_, _⟩ :: done)
    exact ⟨siblings, done', label', start', h, by simpa using hd⟩

end

/-! ## A parse has a derivation -/

/-- Branches of the block `name` that are complete, behind its opening tag, which ends at `stop`;
the next one has this label and this start. -/
inductive OpenBranches (name : Text) (stop : Nat) :
    List Token → List Branch → Option Tag → Nat → Prop
  | nil : OpenBranches name stop [] [] none stop
  | snoc {ts us : List Token} {branches : List Branch} {label : Option Tag} {start : Nat}
      {ns : List Node} {t : Token} {inner : Text} :
    OpenBranches name stop ts branches label start → SequenceTree us ns → t.item = .tag inner →
      Keyword.isBranchOf name (Tag.ofInner inner).name = true →
      OpenBranches name stop (ts ++ us ++ [t]) (branches ++ [.mk label ns ⟨start, t.start⟩])
        (some (.ofInner inner)) t.start

theorem OpenBranches.complete {name : Text} {stop start stop' : Nat} {ts us : List Token}
    {branches branches' : List Branch} {label : Option Tag}
    (h : OpenBranches name stop ts branches label start)
    (h' : BranchTrees name label start us stop' branches') :
    BranchTrees name none stop (ts ++ us) stop' (branches ++ branches') := by
  induction h generalizing us branches' with
  | nil => exact h'
  | snoc ho hs ht hb ih => simpa using ih (.more hs ht hb h')

/-- The tokens taken so far and the state they lead to: one rule for each open construct, and a
sequence at each level. -/
inductive Pending : List Token → State → Prop
  | base {ts : List Token} {ns : List Node} : SequenceTree ts ns → Pending ts ⟨ns.reverse, []⟩
  | element {ts us : List Token} {outer ns : List Node} {frames : List Frame} {t : Token}
      {head : Head} :
    Pending ts ⟨outer, frames⟩ → t.item = .startTag head → head.opens = true →
      SequenceTree us ns →
      Pending (ts ++ t :: us) ⟨ns.reverse, ⟨.element t.start head, outer⟩ :: frames⟩
  | block {ts us vs : List Token} {outer ns : List Node} {frames : List Frame} {t : Token}
      {inner : Text} {branches : List Branch} {label : Option Tag} {start : Nat} :
    Pending ts ⟨outer, frames⟩ → t.item = .tag inner →
      Keyword.roleOf (Tag.ofInner inner).name = .opensBlock →
      OpenBranches (Tag.ofInner inner).name t.stop us branches label start → SequenceTree vs ns →
      Pending (ts ++ t :: (us ++ vs))
        ⟨ns.reverse,
          ⟨.block t.start (.ofInner inner) branches.reverse label start, outer⟩ :: frames⟩

/-- An item fits in wherever a parse has come to. -/
theorem Pending.append {ts us : List Token} {ns : List Node} {s : State} (h : Pending ts s)
    (hi : ItemTree us ns) : Pending (ts ++ us) ⟨ns.reverse ++ s.siblings, s.frames⟩ := by
  cases h with
  | base ht =>
    rw [← List.reverse_append]
    exact .base (ht.append hi.sequence)
  | element hp ht ho hs =>
    rw [← List.reverse_append, List.append_assoc]
    exact .element hp ht ho (hs.append hi.sequence)
  | block hp ht hr hb hs =>
    rw [← List.reverse_append, List.append_assoc, List.cons_append, List.append_assoc]
    exact .block hp ht hr hb (hs.append hi.sequence)

theorem Pending.move {ts : List Token} {t : Token} {s s' : State} (h : Pending ts s)
    (hm : Move t s s') : Pending (ts ++ [t]) s' := by
  cases hm with
  | blank ht hv => exact h.append (.blank ht hv)
  | leaf hn => exact h.append (.leaf hn)
  | openElement ht ho => exact .element h ht ho .empty
  | closeElement ht hk =>
    cases h with
    | element hp ht₀ ho hs =>
      have := hp.append (.element ht₀ ho hs ht hk)
      simpa using this
  | openBlock ht hr => exact .block h ht hr .nil .empty
  | startBranch ht hb =>
    cases h with
    | block hp ht₀ hr hbs hs =>
      have hbs' := hbs.snoc hs ht hb
      simpa using hp.block ht₀ hr hbs' .empty
  | closeBlock ht hr =>
    cases h with
    | block hp ht₀ hr₀ hbs hs =>
      have := hp.append (.block ht₀ hr₀ (hbs.complete (.last hs)) ht hr)
      simpa using this

theorem pending_of_reach {ts : List Token} {s : State} (h : State.initial.reach ts = .ok s) :
    Pending ts s :=
  State.reach_induction (P := Pending) (.base .empty) (fun hp hm => hp.move hm) h

end LiquidTemplate.Nesting

namespace LiquidTemplate.Document

open Nesting

/-- A template is accepted with the nodes that its tokens stand for. -/
theorem parse_eq_ok_iff_sequenceTree {source : Text} {d : Document} :
    parse source = .ok d ↔
      d.source = source ∧ SequenceTree (Token.ofText source) d.children := by
  rw [parse_eq_ok_iff]
  constructor
  · rintro ⟨nodes, h, rfl⟩
    have hp := pending_of_reach h
    refine ⟨rfl, ?_⟩
    generalize Token.ofText source = ts at hp ⊢
    cases hp with
    | base ht => simpa using ht
  · rintro ⟨rfl, ht⟩
    exact ⟨d.children.reverse, by simpa [State.initial] using ht.reach State.initial, by simp⟩

end LiquidTemplate.Document
