import LiquidTemplate.Proofs.Arena.Simulation
import LiquidTemplate.Proofs.Coverage.Induction

/-!
# The arena never outgrows the template

Every record is paid for with bytes of the token that adds it: a start tag has a byte more than the
nodes of its name, its attributes and their values, an end tag and a branch tag have bytes for what
they complete. So however far a template has been read, there is at most one record more than bytes
have been read, and that one is the document (`Builder.length_le_of_comes`). This holds at every
record that is added, in templates that are accepted and in those that are not, and the numbers of
records fit into 32 bits if the template is short enough (`Builder.arena_within`).
-/

namespace LiquidTemplate

open Record (push allocate allocateAll link)

/-! ## Nodes and bytes -/

theorem Tree.size_eq {α : Type} (t : Tree α) : t.size = 1 + sizeAll t.children := by
  cases t
  rfl

/-- Trees of located items, none with more nodes than its item has bytes. -/
theorem Tree.sizeAll_locate_le {α : Type} {chars : α → Text} {f : Located α → Tree Entry}
    {xs : List α} (h : ∀ x : Located α, x.item ∈ xs → (f x).size ≤ Text.size (chars x.item))
    (start : Nat) :
    sizeAll ((Located.locate (fun x => Text.size (chars x)) start xs).map f) ≤
      Text.size (xs.flatMap chars) := by
  induction xs generalizing start with
  | nil => exact Nat.le_refl _
  | cons x xs ih =>
    rw [Located.locate_cons, List.map_cons, sizeAll, List.flatMap_cons, Text.size_append]
    exact Nat.add_le_add (h ⟨start, x⟩ List.mem_cons_self)
      (ih (fun y hy => h y (List.mem_cons_of_mem _ hy)) _)

theorem ValueNode.sizeAll_ofValue_le {v : Located Value} (h : ∀ p ∈ v.item.pieces, p.chars ≠ []) :
    Tree.sizeAll ((ofValue v).parts.map PartNode.outline) ≤ Text.size v.item.content := by
  rw [ofValue, List.map_map]
  refine Tree.sizeAll_locate_le (fun p hp => ?_) _
  rw [Function.comp_apply, PartNode.size_outline]
  exact Text.size_pos (h p.item hp)

/-- The name pays for the attribute, the value for its parts. -/
theorem AttributeNode.size_ofAttribute_le {a : Located Attribute} (h : a.item.Solid) :
    (ofAttribute a).outline.size ≤ Text.size a.item.body := by
  obtain ⟨start, gap, name, assignment⟩ := a
  have hname : 0 < Text.size name := Text.size_pos h.1
  rw [Tree.size_eq, Attribute.body, Text.size_append]
  cases assignment with
  | none =>
    simp only [ofAttribute, Attribute.valueAt?, outline, Tree.children, Option.map_none,
      Option.getD_none, List.map_nil, Tree.sizeAll]
    omega
  | some s =>
    have hparts (start : Nat) : Tree.sizeAll
        ((ValueNode.ofValue ⟨start, s.value⟩).parts.map PartNode.outline) ≤
          Text.size s.value.content :=
      ValueNode.sizeAll_ofValue_le (h.2 s rfl)
    simp only [ofAttribute, Attribute.valueAt?, outline, Tree.children, Option.map_some,
      Option.getD_some, Attribute.assigned, Assignment.chars, Value.chars, Text.size_append]
    exact Nat.add_le_add hname (Nat.le_trans (hparts _) (by omega))

/-- A tag has a byte more than the nodes of its name and its attributes. -/
theorem Head.sizeAll_outline_lt {rest : Text} {h : Head} (hh : h.ReadBefore rest) (start : Nat) :
    Tree.sizeAll (h.outline start) < Text.size h.chars := by
  have hname : Tree.sizeAll (ElementName.ofHead start h).outline ≤ Text.size h.name.chars := by
    unfold ElementName.ofHead
    cases h.name with
    | fixed name => exact Nat.zero_le _
    | dynamic inner => exact Text.size_pos (Delimiter.enclose_ne_nil _ inner)
  have hattributes : Tree.sizeAll ((AttributeNode.ofHead start h).map AttributeNode.outline) ≤
      Text.size (h.attributes.flatMap Attribute.chars) := by
    rw [AttributeNode.outline_ofHead]
    refine Tree.sizeAll_locate_le (fun a ha => ?_) _
    have hsolid := Attribute.solid_of_allReadBefore hh.2.1 a.item ha
    refine Nat.le_trans (AttributeNode.size_ofAttribute_le (a := ⟨_, a.item⟩) hsolid) ?_
    rw [Attribute.chars, Text.size_append]
    exact Nat.le_add_left _ _
  have hlt : 0 < ('<' : Char).utf8Size := Char.utf8Size_pos _
  simp only [Head.outline, Tree.sizeAll_append, Head.chars, Head.tail, Text.size_cons,
    Text.size_append]
  omega

theorem Lexeme.Read.head {l : Lexeme} {head : Head} (h : l.Read) (hl : head ∈ l.head?) :
    (∃ rest, head.ReadBefore rest) ∧ Text.size head.chars ≤ l.size := by
  cases l with
  | startTag _ =>
    cases hl
    obtain ⟨rest, hread, -⟩ := h rfl
    exact ⟨⟨rest, hread⟩, Nat.le_refl _⟩
  | rawElement _ body closeName closeRest =>
    cases hl
    obtain ⟨rest, hread, -⟩ := h rfl
    refine ⟨⟨_, hread⟩, ?_⟩
    simp only [size, chars, Text.size_append]
    omega
  | _ => cases hl

/-- A token that is a node by itself has at least as many bytes as that has nodes. -/
theorem Token.size_leafNode_le {t : Token} {n : Node} (h : t.leafNode? = some n)
    (hread : t.item.Read) (hpos : 0 < t.item.size) : n.outline.size ≤ t.item.size := by
  rw [Tree.size_eq]
  rcases children_leaf h with hnil | ⟨head, hmem, before, hsuffix⟩
  · rw [hnil]
    exact hpos
  · obtain ⟨⟨rest, hhead⟩, hle⟩ := hread.head hmem
    have hlt := Head.sizeAll_outline_lt hhead t.start
    rw [← hsuffix, Tree.sizeAll_append] at hlt
    omega

/-! ## Growth -/

theorem Failure.exists_of_bind_eq_ok {α β : Type} {x : Except Failure α} {f : α → Except Failure β}
    {b : β} (h : x >>= f = .ok b) : ∃ a, x = .ok a ∧ f a = .ok b := by
  cases x with
  | error failure => cases h
  | ok a => exact ⟨a, rfl, h⟩

open Failure (exists_of_bind_eq_ok)

namespace Record

/-- The second arena comes from the first by adding one record after the other, each when there are
fewer than `limit` of them. As many as there are, that is the number of the new one. -/
inductive Grows (limit : Nat) : List Record → List Record → Prop
  | refl (records : List Record) : Grows limit records records
  | push {before records after : List Record} {entry : Entry} {contents : List Slot}
    {slot : Slot} : Grows limit before records → records.length < limit →
    Record.push records entry contents = .ok (after, slot) → Grows limit before after

theorem length_link {parent : Nat} {ids : List Nat} {before after : List Record}
    (h : link parent before ids = .ok after) : after.length = before.length := by
  induction ids generalizing before with
  | nil => cases h; rfl
  | cons id ids ih =>
    simp only [link] at h
    split at h
    · cases h
    · split at h
      · cases h
      · rw [ih h, List.length_set]

theorem length_push {before after : List Record} {entry : Entry} {contents : List Slot}
    {slot : Slot} (h : push before entry contents = .ok (after, slot)) :
    after.length = before.length + 1 := by
  obtain ⟨records, hlink, hreturn⟩ := exists_of_bind_eq_ok h
  cases hreturn
  rw [length_link hlink, List.length_append, List.length_singleton]

namespace Grows

variable {limit limit' : Nat} {before records after : List Record}

theorem mono (h : Grows limit before after) (hle : limit ≤ limit') : Grows limit' before after := by
  induction h with
  | refl => exact .refl _
  | push _ hlt hpush ih => exact ih.push (Nat.lt_of_lt_of_le hlt hle) hpush

theorem trans (h : Grows limit before records) (h' : Grows limit records after) :
    Grows limit before after := by
  induction h' with
  | refl => exact h
  | push _ hlt hpush ih => exact ih.push hlt hpush

theorem length_le (h : Grows limit before after) (hle : before.length ≤ limit) :
    after.length ≤ limit := by
  cases h with
  | refl => exact hle
  | push _ hlt hpush => rwa [length_push hpush]

end Grows

mutual

theorem grows_allocate : ∀ (t : Tree Entry) {before after : List Record} {slot : Slot},
    allocate before t = .ok (after, slot) → Grows (before.length + t.size) before after
  | .node entry ts, before, after, slot, h => by
    rw [allocate] at h
    obtain ⟨⟨records, contents⟩, hts, hpush⟩ := exists_of_bind_eq_ok h
    have hgrows := grows_allocateAll ts hts
    have hlength := hgrows.length_le (Nat.le_add_right _ _)
    rw [Tree.size]
    exact (hgrows.mono (by omega)).push (by omega) hpush

/-- Adding trees adds a record for each of their nodes. -/
theorem grows_allocateAll : ∀ (ts : List (Tree Entry)) {before after : List Record}
    {slots : List Slot},
    allocateAll before ts = .ok (after, slots) →
      Grows (before.length + Tree.sizeAll ts) before after
  | [], _, _, _, h => by
    cases h
    exact .refl _
  | t :: ts, before, after, slots, h => by
    rw [allocateAll] at h
    obtain ⟨⟨records, slot⟩, ht, h⟩ := exists_of_bind_eq_ok h
    obtain ⟨⟨records', slots'⟩, hts, hreturn⟩ := exists_of_bind_eq_ok h
    cases hreturn
    have hgrows := grows_allocate t ht
    have hlength := hgrows.length_le (Nat.le_add_right _ _)
    rw [Tree.sizeAll]
    exact (hgrows.mono (by omega)).trans ((grows_allocateAll ts hts).mono (by omega))

end

end Record

namespace Builder

open Record (Grows length_push grows_allocate grows_allocateAll)

/-! ## What a token adds -/

section

variable {b b' : Builder} {t : Token}

theorem grows_leaf {n : Node} (h : b.leaf n = .ok b') :
    Grows (b.records.length + n.outline.size) b.records b'.records := by
  obtain ⟨⟨records, slot⟩, hallocate, hreturn⟩ := exists_of_bind_eq_ok h
  cases hreturn
  exact grows_allocate _ hallocate

theorem grows_openElement {start : Nat} {head : Head} (h : b.openElement start head = .ok b') :
    Grows (b.records.length + Tree.sizeAll (head.outline start)) b.records b'.records := by
  obtain ⟨⟨records, name⟩, hname, h⟩ := exists_of_bind_eq_ok h
  obtain ⟨⟨records', attributes⟩, hattributes, hreturn⟩ := exists_of_bind_eq_ok h
  cases hreturn
  have hgrows := grows_allocateAll _ hname
  have hlength := hgrows.length_le (Nat.le_add_right _ _)
  rw [Head.outline, Tree.sizeAll_append]
  exact (hgrows.mono (by omega)).trans ((grows_allocateAll _ hattributes).mono (by omega))

theorem grows_push {before after : List Record} {entry : Entry} {contents : List Slot}
    {slot : Slot} (h : push before entry contents = .ok (after, slot)) :
    Grows (before.length + 1) before after :=
  (Grows.refl before).push (Nat.lt_succ_self _) h

theorem grows_endTag {key : Key} {stop : Nat} (h : b.endTag key stop = .ok b') :
    Grows (b.records.length + 1) b.records b'.records := by
  unfold endTag at h
  split at h
  · cases h
  · split at h
    · obtain ⟨⟨records, slot⟩, hpush, hreturn⟩ := exists_of_bind_eq_ok h
      cases hreturn
      exact grows_push hpush
    · cases h
  · cases h

theorem grows_startBranch {tag : Tag} {start : Nat} (h : b.startBranch tag start = .ok b') :
    Grows (b.records.length + 1) b.records b'.records := by
  unfold startBranch at h
  split at h
  · cases h
  · cases h
  · split at h
    · obtain ⟨⟨records, slot⟩, hpush, hreturn⟩ := exists_of_bind_eq_ok h
      cases hreturn
      exact grows_push hpush
    · cases h

/-- The last branch and the block. -/
theorem grows_endBlock {name : Text} {tag : Tag} {position : Span}
    (h : b.endBlock name tag position = .ok b') :
    Grows (b.records.length + 2) b.records b'.records := by
  unfold endBlock at h
  split at h
  · cases h
  · split at h
    · obtain ⟨⟨records, branch⟩, hbranch, h⟩ := exists_of_bind_eq_ok h
      obtain ⟨⟨records', slot⟩, hblock, hreturn⟩ := exists_of_bind_eq_ok h
      cases hreturn
      have hlength := length_push hbranch
      exact ((grows_push hbranch).mono (by omega)).trans ((grows_push hblock).mono (by omega))
    · cases h
  · cases h

theorem grows_inline (hread : t.item.Read) (hpos : 0 < t.item.size) (h : b.inline t = .ok b') :
    Grows (b.records.length + t.item.size) b.records b'.records := by
  unfold inline at h
  split at h
  · next n hn =>
    have hsize := Token.size_leafNode_le hn hread hpos
    exact (grows_leaf h).mono (by omega)
  · cases h
    exact .refl _

/-- A token adds no more records than it has bytes. -/
theorem grows_step (hread : t.item.Read) (hpos : 0 < t.item.size) (h : b.step t = .ok b') :
    Grows (b.records.length + t.item.size) b.records b'.records := by
  simp only [step] at h
  split at h
  · next head hitem =>
    split at h
    · have hmem : head ∈ t.item.head? := by rw [hitem]; rfl
      obtain ⟨⟨rest, hhead⟩, hle⟩ := hread.head hmem
      have hlt := Head.sizeAll_outline_lt hhead t.start
      exact (grows_openElement h).mono (by omega)
    · exact grows_inline hread hpos h
  · exact (grows_endTag h).mono (by omega)
  · next inner hitem =>
    split at h
    · cases h
      exact .refl _
    · exact (grows_startBranch h).mono (by omega)
    · have htwo : 2 ≤ t.item.size := by
        rw [hitem]
        simp only [Lexeme.size, Lexeme.chars, Delimiter.enclose, Text.size_append]
        have hopening : Text.size Delimiter.tag.opening = 2 := rfl
        omega
      exact (grows_endBlock h).mono (by omega)
    · exact grows_inline hread hpos h
  · cases h
  · exact grows_inline hread hpos h

end

/-! ## Whole templates -/

/-- Where the reading of a template and its builder come to, token by token. -/
inductive Comes (source : Text) : Cursor → Builder → Prop
  | start : Comes source ⟨0, source⟩ (initial source)
  | next {c c' : Cursor} {b b' : Builder} {t : Token} : Comes source c b → c.next? = some (t, c') →
    b.step t = .ok b' → Comes source c' b'

section

variable {source : Text} {c c' : Cursor} {b b' : Builder} {t : Token}

/-- What the next token adds is paid for with the bytes the cursor moves by. -/
theorem grows_of_next? (hc : c.next? = some (t, c')) (h : b.step t = .ok b') :
    c'.offset = c.offset + t.item.size ∧
      Grows (b.records.length + t.item.size) b.records b'.records := by
  obtain ⟨hnext, hstart, hstop⟩ := Cursor.next?_eq_some_iff.1 hc
  refine ⟨by rw [hstop, Token.stop, hstart], grows_step ?_ ?_ h⟩
  · exact fun hconstruct => ⟨_, (Lexeme.next?_chars_iff hconstruct).1
      (Lexeme.append_of_next? hnext ▸ hnext)⟩
  · exact Lexeme.size_pos_of_next? hnext

theorem Comes.stands (h : Comes source c b) : c.Stands source := by
  induction h with
  | start => exact ⟨[], rfl, rfl⟩
  | next _ hc _ ih => exact ih.next hc

/-- One record more than bytes have been read: the document. -/
theorem length_le_of_comes (h : Comes source c b) : b.records.length ≤ c.offset + 1 := by
  induction h with
  | start => exact Nat.le_refl _
  | next _ hc hstep ih =>
    obtain ⟨hoffset, hgrows⟩ := grows_of_next? hc hstep
    have hlength := hgrows.length_le (Nat.le_add_right _ _)
    omega

theorem Comes.grows (h : Comes source c b) (hc : c.next? = some (t, c'))
    (hstep : b.step t = .ok b') : Grows (c'.offset + 1) b.records b'.records := by
  obtain ⟨hoffset, hgrows⟩ := grows_of_next? hc hstep
  have hlength := length_le_of_comes h
  exact hgrows.mono (by omega)

theorem Comes.offset_le (h : Comes source c b) : c.offset ≤ Text.size source := by
  have hsize := Cursor.size_text h.stands
  omega

/-- How building goes on: to the end of the template, or to a token that is not taken. -/
theorem Comes.exists_end (h : Comes source c b) :
    ∃ c' b', Comes source c' b' ∧
      ((c'.next? = none ∧ b.run c.tokens = b'.finish) ∨
        ∃ t c'' failure, c'.next? = some (t, c'') ∧ b'.step t = .error failure ∧
          b.run c.tokens = .error failure) := by
  generalize hts : c.tokens = ts
  induction ts generalizing c b with
  | nil =>
    rw [Cursor.tokens_eq] at hts
    split at hts
    · next hc => exact ⟨c, b, h, .inl ⟨hc, rfl⟩⟩
    · cases hts
  | cons t ts ih =>
    rw [Cursor.tokens_eq] at hts
    split at hts
    · cases hts
    · next u c₁ hc =>
      cases hts
      cases hstep : b.step t with
      | error failure =>
        refine ⟨c, b, h, .inr ⟨t, c₁, failure, hc, hstep, ?_⟩⟩
        rw [run, hstep]
        rfl
      | ok b₁ =>
        have hrun : b.run (t :: c₁.tokens) = b₁.run c₁.tokens := by
          rw [run, hstep]
          rfl
        rw [hrun]
        exact ih (h.next hc hstep) rfl

/-- Building fails for no other reason than a fault. -/
theorem exists_fault_of_build {failure : Failure} (h : build source = .error failure) :
    ∃ fault, failure = .fault fault := by
  rw [build_eq] at h
  split at h
  · cases h
  · cases h
    exact ⟨_, rfl⟩

theorem length_finish {records : List Record} (h : b.finish = .ok records) :
    records.length = b.records.length := by
  unfold finish at h
  split at h
  · cases h
  · rw [Record.length_link h, List.length_modify]

end

/-- **The arena never outgrows the template**: however far a template is read, its arena has at most
one record more than bytes have been read, before the next token, at every record that the token
adds, and behind it. Building ends at such a place, at the end of the template or at the first token
with a fault, which adds nothing. So the arena of a document has at most one record more than the
template has bytes, and if those are fewer than there are numbers of 32 bits, the number of every
record that is ever added is one of them. -/
theorem arena_within (source : Text) :
    (∀ c b, Comes source c b → b.records.length ≤ c.offset + 1 ∧
      ∀ t c' b', c.next? = some (t, c') → b.step t = .ok b' →
        Comes source c' b' ∧ Grows (c'.offset + 1) b.records b'.records) ∧
    (∃ c b, Comes source c b ∧
      ((c.next? = none ∧ build source = b.finish) ∨
        ∃ t c' fault, c.next? = some (t, c') ∧ b.step t = .error (.fault fault) ∧
          build source = .error (.fault fault))) ∧
    (∀ d, Document.parse source = .ok d → d.records.length ≤ Text.size source + 1) ∧
    (Text.size source < UInt32.size → ∀ c b, Comes source c b →
      ∀ t c' b', c.next? = some (t, c') → b.step t = .ok b' →
        Grows UInt32.size b.records b'.records) := by
  have hend := Comes.exists_end (.start : Comes source _ _)
  refine ⟨fun c b h => ⟨length_le_of_comes h, fun t c' b' hc hstep =>
      ⟨h.next hc hstep, h.grows hc hstep⟩⟩, ?_, fun d hd => ?_,
    fun hsize c b h t c' b' hc hstep => ?_⟩
  · obtain ⟨c, b, h, hfinish | ⟨t, c', failure, hc, hstep, hfail⟩⟩ := hend
    · exact ⟨c, b, h, .inl hfinish⟩
    · have hfail : build source = .error failure := hfail
      obtain ⟨fault, rfl⟩ := exists_fault_of_build hfail
      exact ⟨c, b, h, .inr ⟨t, c', fault, hc, hstep, hfail⟩⟩
  · have hbuild : build source = .ok d.records := by rw [build_eq, hd]
    obtain ⟨c, b, h, ⟨-, hfinish⟩ | ⟨t, c', failure, -, -, hfail⟩⟩ := hend
    · have hlength := length_finish (hfinish.symm.trans hbuild)
      have hle := length_le_of_comes h
      have hoffset := h.offset_le
      omega
    · cases hfail.symm.trans hbuild
  · have hoffset := (h.next hc hstep).offset_le
    exact (h.grows hc hstep).mono (by omega)

/-- A start tag with a dynamic name and an attribute with two parts adds four records at once. -/
theorem arena_within_dynamic :
    let source := "<{{n}} a=x{{y}}>{% if b %}c{% else %}{% endif %}</{{n}}>".toList
    ∃ t c' b' d, Cursor.next? ⟨0, source⟩ = some (t, c') ∧ c'.offset = 16 ∧
      (initial source).step t = .ok b' ∧ b'.records.length = 5 ∧
      b'.records.length ≤ c'.offset + 1 ∧
      Grows UInt32.size (initial source).records b'.records ∧
      Document.parse source = .ok d ∧ d.records.length ≤ 57 := by
  intro source
  have htaken : (Cursor.next? ⟨0, source⟩).map (fun p => (p.2.offset,
      ((initial source).step p.1).toOption.map fun b => b.records.length)) = some (16, some 5) := by
    decide +kernel
  have haccepted : Document.outcomeEvent (Document.parse source) = .accepted 10 := by
    decide +kernel
  obtain ⟨⟨t, c'⟩, hc, htaken⟩ := Option.map_eq_some_iff.1 htaken
  obtain ⟨hoffset, hstep⟩ := Prod.mk.inj htaken
  obtain ⟨b', hb', hlength⟩ := Option.map_eq_some_iff.1 hstep
  have hb' : (initial source).step t = .ok b' := by
    revert hb'
    cases (initial source).step t <;> simp [Except.toOption]
  obtain ⟨d, hd, -⟩ := Document.outcomeEvent_eq_accepted_iff.1 haccepted
  obtain ⟨hgrowth, -, hdocument, hnumbers⟩ := arena_within source
  obtain ⟨hnext, -⟩ := (hgrowth _ _ .start).2 t c' b' hc hb'
  exact ⟨t, c', b', d, hc, hoffset, hb', hlength, (hgrowth c' b' hnext).1,
    hnumbers (by decide) _ _ .start t c' b' hc hb', hd, hdocument d hd⟩

end Builder

end LiquidTemplate
