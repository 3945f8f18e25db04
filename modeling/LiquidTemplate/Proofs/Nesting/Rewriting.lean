import LiquidTemplate.Proofs.Nesting.Relocation

/-!
# Parsing a template that is rewritten

A template can be changed such that each of its tokens does the same as before, to nodes that differ
in offsets, trim markers and verbatim bodies only. `Rewriting` says how these change, and
`Token.Rewritten` that two tokens fit it. Then every step of a parse fits it too
(`State.Rewritten.step`), so both templates are rejected for the same fault or both are accepted
(`State.run_rewritten`).
-/

namespace LiquidTemplate

/-- How a document changes with its template: its offsets and, by where a construct starts or stops,
trim markers and verbatim bodies. -/
structure Rewriting where
  move : Nat → Nat
  /-- The trim markers of what starts at an offset. -/
  opening : Nat → Trims → Trims
  /-- The trim markers of an end tag that stops at an offset. -/
  closing : Nat → Trims → Trims
  /-- The body of what starts at an offset. -/
  body : Nat → Text → Text

namespace Rewriting

variable (w : Rewriting)

def span (s : Span) : Span := ⟨w.move s.start, w.move s.stop⟩

/-- The tag that starts at `start`. -/
def tag (start : Nat) (t : Tag) : Tag := { t with trims := w.opening start t.trims }

@[simp] theorem name_tag (start : Nat) (t : Tag) : (w.tag start t).name = t.name := rfl

/-- The kind of a node that covers `s`. -/
def kind (s : Span) : Kind → Kind
  | .drop markup => .drop { markup with trims := w.opening s.start markup.trims }
  | .tag tag => .tag (w.tag s.start tag)
  | .comment body => .comment (w.body s.start body)
  | .rawTag tag body closing =>
    .rawTag (w.tag s.start tag) (w.body s.start body) (w.closing s.stop closing)
  | .rawElement name body => .rawElement name (w.body s.start body)
  | .block tag closing => .block (w.tag s.start tag) (w.closing s.stop closing)
  | .branch label => .branch (label.map (w.tag s.start))
  | kind => kind

def entry (e : Entry) : Entry := ⟨e.role, w.kind e.position e.kind, w.span e.position⟩

/-- Trees whose entries differ as the rewriting says. -/
def Trees (ts ts' : List (Tree Entry)) : Prop := ts' = Tree.mapAll w.entry ts

end Rewriting

/-! ## What is under way -/

/-- What is open is the same but for what the rewriting changes. -/
inductive Opener.Rewritten (w : Rewriting) : Opener → Opener → Prop
  | element {start start' : Nat} {head head' : Head} :
    start' = w.move start → head'.name.key = head.name.key →
      (ElementName.ofHead start' head').fixed? = (ElementName.ofHead start head).fixed? →
      w.Trees (ElementName.ofHead start head).outline (ElementName.ofHead start' head').outline →
      w.Trees ((AttributeNode.ofHead start head).map AttributeNode.outline)
        ((AttributeNode.ofHead start' head').map AttributeNode.outline) →
      Rewritten w (.element start head) (.element start' head')
  | block {start branchStart : Nat} {tag : Tag} {branches branches' : List Branch}
      {label : Option Tag} :
    w.Trees (Branch.outlineAll branches.reverse) (Branch.outlineAll branches'.reverse) →
      Rewritten w (.block start tag branches label branchStart)
        (.block (w.move start) (w.tag start tag) branches' (label.map (w.tag branchStart))
          (w.move branchStart))

inductive Frame.AllRewritten (w : Rewriting) : List Frame → List Frame → Prop
  | nil : AllRewritten w [] []
  | cons {o o' : Opener} {outer outer' : List Node} {fs fs' : List Frame} :
    o.Rewritten w o' → w.Trees (Node.outlineAll outer.reverse) (Node.outlineAll outer'.reverse) →
      AllRewritten w fs fs' → AllRewritten w (⟨o, outer⟩ :: fs) (⟨o', outer'⟩ :: fs')

theorem Opener.Rewritten.closing {w : Rewriting} {o o' : Opener} (h : o.Rewritten w o') :
    o'.closing = o.closing ∧ o'.start = w.move o.start := by
  cases h with
  | element hstart hkey _ _ _ => exact ⟨congrArg Closing.element hkey, hstart⟩
  | block _ => exact ⟨rfl, rfl⟩

/-- The outermost open constructs. -/
theorem Frame.AllRewritten.getLast? {w : Rewriting} {fs fs' : List Frame}
    (h : AllRewritten w fs fs') :
    (fs.getLast? = none ∧ fs'.getLast? = none) ∨
      ∃ f f', fs.getLast? = some f ∧ fs'.getLast? = some f' ∧ f.opener.Rewritten w f'.opener := by
  induction h with
  | nil => exact .inl ⟨rfl, rfl⟩
  | cons ho _ _ ih =>
    rw [List.getLast?_cons, List.getLast?_cons]
    rcases ih with ⟨hn, hn'⟩ | ⟨f, f', hf, hf', h⟩
    · exact .inr ⟨_, _, by rw [hn, Option.getD_none], by rw [hn', Option.getD_none], ho⟩
    · exact .inr ⟨f, f', by rw [hf, Option.getD_some], by rw [hf', Option.getD_some], h⟩

/-- The states of both parses. -/
structure State.Rewritten (w : Rewriting) (s s' : State) : Prop where
  siblings : w.Trees (Node.outlineAll s.siblings.reverse) (Node.outlineAll s'.siblings.reverse)
  frames : Frame.AllRewritten w s.frames s'.frames

/-! ## Tokens -/

/-- Both tokens do the same, to nodes that the rewriting relates. -/
inductive Token.DoesSame (w : Rewriting) (t t' : Token) : Prop
  | blank {value value' : Text} :
    t.item = .text value → Text.AllBlank value → t'.item = .text value' → Text.AllBlank value' →
      DoesSame w t t'
  | leaf {n n' : Node} :
    t.leafNode? = some n → t'.leafNode? = some n' → w.Trees [n.outline] [n'.outline] →
      DoesSame w t t'
  | startTag {head head' : Head} :
    t.item = .startTag head → head.opens = true → t'.item = .startTag head' →
      head'.opens = true → Opener.Rewritten w (.element t.start head) (.element t'.start head') →
      DoesSame w t t'
  | endTag {name name' : TagName} {gap gap' : Text} :
    t.item = .endTag name gap → t'.item = .endTag name' gap' → name'.key = name.key →
      DoesSame w t t'
  | opening {inner inner' : Text} :
    t.item = .tag inner → t'.item = .tag inner' →
      Keyword.roleOf (Tag.ofInner inner).name = .opensBlock ∨
        Keyword.roleOf (Tag.ofInner inner).name = .startsBranch →
      Tag.ofInner inner' = w.tag t.start (Tag.ofInner inner) → DoesSame w t t'
  | closing {inner inner' block : Text} :
    t.item = .tag inner → t'.item = .tag inner' →
      Keyword.roleOf (Tag.ofInner inner).name = .closes block →
      (Tag.ofInner inner').name = (Tag.ofInner inner).name →
      (Tag.ofInner inner').trims = w.closing t.stop (Tag.ofInner inner).trims → DoesSame w t t'
  | invalid {flaw : Flaw} {rest rest' : Text} :
    t.item = .invalid flaw rest → t'.item = .invalid flaw rest' → DoesSame w t t'

/-- The token is the other one as the rewriting changes it. -/
structure Token.Rewritten (w : Rewriting) (t t' : Token) : Prop where
  start : t'.start = w.move t.start
  stop : t'.stop = w.move t.stop
  doesSame : t.DoesSame w t'

inductive Token.AllRewritten (w : Rewriting) : List Token → List Token → Prop
  | nil : AllRewritten w [] []
  | cons {t t' : Token} {ts ts' : List Token} :
    t.Rewritten w t' → AllRewritten w ts ts' → AllRewritten w (t :: ts) (t' :: ts')

/-! ## Steps -/

/-- Both succeed or both fail, with related results. -/
inductive Agree {ε α : Type} (E : ε → ε → Prop) (R : α → α → Prop) : Except ε α → Except ε α → Prop
  | ok {a a' : α} : R a a' → Agree E R (.ok a) (.ok a')
  | error {e e' : ε} : E e e' → Agree E R (.error e) (.error e')

namespace Rewriting

variable {w : Rewriting} {ts ts' us us' : List (Tree Entry)}

theorem Trees.append (h : w.Trees ts ts') (h' : w.Trees us us') :
    w.Trees (ts ++ us) (ts' ++ us') := by
  rw [Trees, Tree.mapAll_append, ← h, ← h']

theorem Trees.node {e e' : Entry} (he : e' = w.entry e) (h : w.Trees ts ts') :
    w.Trees [.node e ts] [.node e' ts'] := by
  rw [he, h]
  rfl

end Rewriting

namespace State.Rewritten

variable {w : Rewriting} {s s' : State}

theorem append {n n' : Node} (h : s.Rewritten w s') (hn : w.Trees [n.outline] [n'.outline]) :
    (s.append n).Rewritten w (s'.append n') := by
  refine ⟨?_, h.frames⟩
  simp only [State.append, List.reverse_cons, Node.outlineAll_append]
  exact h.siblings.append hn

theorem push {o o' : Opener} (h : s.Rewritten w s') (ho : o.Rewritten w o') :
    (s.push o).Rewritten w (s'.push o') :=
  ⟨rfl, .cons ho h.siblings h.frames⟩

/-- The branch under way is completed. -/
theorem branch {label : Option Tag} {start stop : Nat} {branches branches' : List Branch}
    (h : s.Rewritten w s')
    (hb : w.Trees (Branch.outlineAll branches.reverse) (Branch.outlineAll branches'.reverse)) :
    w.Trees (Branch.outlineAll (s.finishBranch label start stop :: branches).reverse)
      (Branch.outlineAll (s'.finishBranch (label.map (w.tag start)) (w.move start) (w.move stop) ::
        branches').reverse) := by
  simp only [List.reverse_cons, Branch.outlineAll_append]
  exact hb.append (.node rfl h.siblings)

theorem endTag (h : s.Rewritten w s') (key : Key) (position : Span) :
    Agree Eq (State.Rewritten w) (s.endTag key position).state
      (s'.endTag key (w.span position)).state := by
  obtain ⟨siblings, frames⟩ := s
  obtain ⟨siblings', frames'⟩ := s'
  have hframes := h.frames
  cases hframes with
  | nil => exact .error rfl
  | @cons _ _ outer outer' fs fs' ho houter hframes =>
    cases ho with
    | block _ => exact .error rfl
    | element hstart hkey hfixed hname hattributes =>
      have houter : State.Rewritten w ⟨outer, fs⟩ ⟨outer', fs'⟩ := ⟨houter, hframes⟩
      simp only [State.endTag, hkey]
      split
      · refine .ok (houter.append (.node ?_ ((hname.append hattributes).append h.siblings)))
        rw [hfixed, hstart]
        rfl
      · exact .error rfl

theorem startBranch (h : s.Rewritten w s') (tag : Tag) (position : Span) :
    Agree Eq (State.Rewritten w) (s.startBranch tag position).state
      (s'.startBranch (w.tag position.start tag) (w.span position)).state := by
  obtain ⟨siblings, frames⟩ := s
  obtain ⟨siblings', frames'⟩ := s'
  have hframes := h.frames
  cases hframes with
  | nil => exact .error rfl
  | cons ho houter hframes =>
    cases ho with
    | element _ hkey _ _ _ => exact .error (congrArg (Fault.branchOfElement tag.name) hkey.symm)
    | @block start _ block _ _ _ hb =>
      by_cases hof : Keyword.isBranchOf block.name tag.name = true
      · have hof' : Keyword.isBranchOf (w.tag start block).name
          (w.tag position.start tag).name = true := hof
        simp only [State.startBranch, if_pos hof, if_pos hof']
        exact .ok ⟨rfl, .cons (.block (h.branch hb)) houter hframes⟩
      · have hof' : ¬ Keyword.isBranchOf (w.tag start block).name
          (w.tag position.start tag).name = true := hof
        simp only [State.startBranch, if_neg hof, if_neg hof']
        exact .error rfl

theorem endBlock (h : s.Rewritten w s') (name : Text) {tag tag' : Tag} (position : Span)
    (ht : tag'.trims = w.closing position.stop tag.trims) :
    Agree Eq (State.Rewritten w) (s.endBlock name tag position).state
      (s'.endBlock name tag' (w.span position)).state := by
  obtain ⟨siblings, frames⟩ := s
  obtain ⟨siblings', frames'⟩ := s'
  have hframes := h.frames
  cases hframes with
  | nil => exact .error rfl
  | @cons _ _ outer outer' fs fs' ho houter hframes =>
    cases ho with
    | element _ hkey _ _ _ =>
      exact .error (congrArg (fun key => Fault.mismatched (.element key) (.block name)) hkey.symm)
    | @block start _ block _ _ _ hb =>
      have houter : State.Rewritten w ⟨outer, fs⟩ ⟨outer', fs'⟩ := ⟨houter, hframes⟩
      by_cases hof : block.name = name
      · have hof' : (w.tag start block).name = name := hof
        simp only [State.endBlock, if_pos hof, if_pos hof']
        refine .ok (houter.append (.node ?_ (h.branch hb)))
        rw [ht]
        rfl
      · have hof' : ¬ (w.tag start block).name = name := hof
        simp only [State.endBlock, if_neg hof, if_neg hof']
        exact .error rfl

/-- A rewritten token does the same in a rewritten state. -/
theorem step {t t' : Token} (h : s.Rewritten w s') (ht : t.Rewritten w t') :
    Agree Eq (State.Rewritten w) (s.step t).state (s'.step t').state := by
  have hspan : t'.span = w.span t.span := by rw [Token.span, ht.start, ht.stop]; rfl
  cases ht.doesSame with
  | blank hv hblank hv' hblank' =>
    simp only [State.step, hv, hv', Node.ofText?_eq_none_iff.2 hblank,
      Node.ofText?_eq_none_iff.2 hblank']
    exact .ok h
  | leaf hn hn' houtline =>
    rw [State.step_of_leafNode? hn, State.step_of_leafNode? hn']
    exact .ok (h.append houtline)
  | startTag hi ho hi' ho' hopener =>
    simp only [Head.opens, Bool.and_eq_true, Option.isNone_iff_eq_none, Bool.not_eq_true'] at ho ho'
    simp only [State.step, hi, hi', State.startTag, ho.1, ho.2, ho'.1, ho'.2]
    exact .ok (h.push hopener)
  | endTag hi hi' hkey =>
    simp only [State.step, hi, hi', hspan, hkey]
    exact h.endTag _ _
  | opening hi hi' hrole htag =>
    simp only [State.step, hi, hi', hspan, htag, State.liquidTag, Rewriting.name_tag]
    rcases hrole with hrole | hrole
    · simp only [hrole]
      exact .ok (h.push (.block rfl))
    · simp only [hrole]
      exact h.startBranch _ _
  | closing hi hi' hrole hname htrims =>
    simp only [State.step, hi, hi', hspan, State.liquidTag, hname, hrole]
    exact h.endBlock _ _ htrims
  | invalid hi hi' =>
    simp only [State.step, hi, hi']
    exact .error rfl

end State.Rewritten

/-! ## Runs -/

namespace Rewriting

variable (w : Rewriting)

/-- Both faults are the same, where the rewriting says. -/
def SameFault (found found' : Fault × Nat) : Prop := found' = (found.1, w.move found.2)

end Rewriting

namespace State.Rewritten

variable {w : Rewriting} {s s' : State}

theorem reach {ts ts' : List Token} (h : s.Rewritten w s') (hts : Token.AllRewritten w ts ts') :
    Agree w.SameFault (State.Rewritten w) (s.reach ts) (s'.reach ts') := by
  induction hts generalizing s s' with
  | nil => exact .ok h
  | @cons t t' ts ts' ht hts ih =>
    rw [State.reach_cons, State.reach_cons]
    have hstep := h.step ht
    generalize (s.step t).state = r, (s'.step t').state = r' at hstep
    cases hstep with
    | ok hs => exact ih hs
    | error hfault => exact .error (by rw [Rewriting.SameFault, hfault, ht.start])

theorem finish (h : s.Rewritten w s') :
    Agree w.SameFault (fun ns ns' => w.Trees (Node.outlineAll ns) (Node.outlineAll ns')) s.finish
      s'.finish := by
  simp only [State.finish]
  rcases h.frames.getLast? with ⟨hn, hn'⟩ | ⟨f, f', hf, hf', ho⟩
  · simp only [hn, hn']
    exact .ok h.siblings
  · simp only [hf, hf', ho.closing.1, ho.closing.2]
    exact .error rfl

end State.Rewritten

namespace State

theorem run_rewritten {w : Rewriting} {ts ts' : List Token} (h : Token.AllRewritten w ts ts')
    (events events' : List Event) :
    Agree w.SameFault (fun ns ns' => w.Trees (Node.outlineAll ns) (Node.outlineAll ns'))
      (initial.run events ts).2 (initial.run events' ts').2 := by
  rw [run_eq, run_eq]
  have hinitial : Rewritten w initial initial := ⟨rfl, .nil⟩
  have hreach := hinitial.reach h
  generalize initial.reach ts = r, initial.reach ts' = r' at hreach
  cases hreach with
  | ok hs => exact hs.finish
  | error hfault => exact .error hfault

end State

end LiquidTemplate
