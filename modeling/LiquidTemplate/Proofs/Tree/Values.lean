import LiquidTemplate.Tree.Ordered

/-!
# Values of trees

The values of all nodes of a tree (`Tree.values`), the tree of the same shape with other values
(`Tree.map`), and the list of all nodes, each behind the one that holds it (`Tree.listed`). The list
is the root and then what a walk visits (`Tree.listed_none`).
-/

namespace LiquidTemplate.Tree

variable {α β γ : Type}

/-! ## All values -/

mutual

/-- The values of all nodes. -/
def values : Tree α → List α
  | node value children => value :: valuesAll children

def valuesAll : List (Tree α) → List α
  | [] => []
  | t :: ts => t.values ++ valuesAll ts

end

theorem valuesAll_append (ts us : List (Tree α)) :
    valuesAll (ts ++ us) = valuesAll ts ++ valuesAll us := by
  induction ts with
  | nil => rfl
  | cons t ts ih => rw [List.cons_append, valuesAll, valuesAll, ih, List.append_assoc]

theorem forall_mem_valuesAll_map {P : α → Prop} {f : β → Tree α} {xs : List β}
    (h : ∀ x ∈ xs, ∀ v ∈ (f x).values, P v) : ∀ v ∈ valuesAll (xs.map f), P v := by
  induction xs with
  | nil => exact List.forall_mem_nil _
  | cons x xs ih =>
    obtain ⟨hx, hxs⟩ := List.forall_mem_cons.1 h
    exact List.forall_mem_append.2 ⟨hx, ih hxs⟩

mutual

theorem snd_mem_of_mem_preorder : ∀ (t : Tree α) (parent : α),
    ∀ v ∈ t.preorder parent, v.2 ∈ t.values
  | .node value ts, parent => by
    rw [preorder, values]
    exact List.forall_mem_cons.2 ⟨List.mem_cons_self, fun v hv =>
      List.mem_cons_of_mem _ (snd_mem_of_mem_preorderAll ts value v hv)⟩

theorem snd_mem_of_mem_preorderAll : ∀ (ts : List (Tree α)) (parent : α),
    ∀ v ∈ preorderAll parent ts, v.2 ∈ valuesAll ts
  | [], _ => List.forall_mem_nil _
  | t :: ts, parent => by
    rw [preorderAll, valuesAll]
    exact List.forall_mem_append.2
      ⟨fun v hv => List.mem_append_left _ (snd_mem_of_mem_preorder t parent v hv),
        fun v hv => List.mem_append_right _ (snd_mem_of_mem_preorderAll ts parent v hv)⟩

end

/-- What a walk visits are nodes of the tree. -/
theorem snd_mem_of_mem_walk {t : Tree α} {v : α × α} (hv : v ∈ t.walk) : v.2 ∈ t.values := by
  rw [walk_eq_descendants] at hv
  cases t with
  | node value ts => exact List.mem_cons_of_mem _ (snd_mem_of_mem_preorderAll ts value v hv)

/-! ## Other values -/

mutual

/-- The tree of the same shape with other values. -/
def map (f : α → β) : Tree α → Tree β
  | node value children => node (f value) (mapAll f children)

def mapAll (f : α → β) : List (Tree α) → List (Tree β)
  | [] => []
  | t :: ts => t.map f :: mapAll f ts

end

theorem mapAll_eq_map (f : α → β) (ts : List (Tree α)) : mapAll f ts = ts.map (map f) := by
  induction ts with
  | nil => rfl
  | cons t ts ih => rw [mapAll, ih, List.map_cons]

theorem mapAll_append (f : α → β) (ts us : List (Tree α)) :
    mapAll f (ts ++ us) = mapAll f ts ++ mapAll f us := by
  simp only [mapAll_eq_map, List.map_append]

theorem mapAll_map (f : α → β) (g : γ → Tree α) (xs : List γ) :
    mapAll f (xs.map g) = xs.map fun x => (g x).map f := by
  rw [mapAll_eq_map, List.map_map]
  rfl

mutual

theorem size_map (f : α → β) : ∀ t : Tree α, (t.map f).size = t.size
  | .node _ ts => by rw [map, size, size, sizeAll_mapAll f ts]

theorem sizeAll_mapAll (f : α → β) : ∀ ts : List (Tree α), sizeAll (mapAll f ts) = sizeAll ts
  | [] => rfl
  | t :: ts => by rw [mapAll, sizeAll, sizeAll, size_map f t, sizeAll_mapAll f ts]

end

mutual

theorem map_congr {f g : α → β} : ∀ t : Tree α, (∀ x ∈ t.values, f x = g x) → t.map f = t.map g
  | .node value ts, h => by
    rw [values, List.forall_mem_cons] at h
    rw [map, map, h.1, mapAll_congr ts h.2]

/-- What is done to a tree depends on its values only. -/
theorem mapAll_congr {f g : α → β} : ∀ ts : List (Tree α), (∀ x ∈ valuesAll ts, f x = g x) →
    mapAll f ts = mapAll g ts
  | [], _ => rfl
  | t :: ts, h => by
    rw [valuesAll, List.forall_mem_append] at h
    rw [mapAll, mapAll, map_congr t h.1, mapAll_congr ts h.2]

end

mutual

theorem map_map (g : β → γ) (f : α → β) : ∀ t : Tree α, (t.map f).map g = t.map fun x => g (f x)
  | .node _ ts => by rw [map, map, map, mapAll_mapAll g f ts]

theorem mapAll_mapAll (g : β → γ) (f : α → β) : ∀ ts : List (Tree α),
    mapAll g (mapAll f ts) = mapAll (fun x => g (f x)) ts
  | [] => rfl
  | t :: ts => by rw [mapAll, mapAll, mapAll, map_map g f t, mapAll_mapAll g f ts]

end

mutual

theorem values_map (f : α → β) : ∀ t : Tree α, (t.map f).values = t.values.map f
  | .node _ ts => by rw [map, values, values, List.map_cons, valuesAll_mapAll f ts]

theorem valuesAll_mapAll (f : α → β) : ∀ ts : List (Tree α),
    valuesAll (mapAll f ts) = (valuesAll ts).map f
  | [] => rfl
  | t :: ts => by
    rw [mapAll, valuesAll, valuesAll, List.map_append, values_map f t, valuesAll_mapAll f ts]

end

/-! ## Each node behind the one that holds it -/

mutual

/-- The nodes of a tree in pre-order, each behind the one that holds it; `holder` is that of the
root, if there is one. -/
def listed (holder : Option α) : Tree α → List (Option α × α)
  | node value ts => (holder, value) :: listedAll (some value) ts

def listedAll (holder : Option α) : List (Tree α) → List (Option α × α)
  | [] => []
  | t :: ts => t.listed holder ++ listedAll holder ts

end

theorem listedAll_append (holder : Option α) (ts us : List (Tree α)) :
    listedAll holder (ts ++ us) = listedAll holder ts ++ listedAll holder us := by
  induction ts with
  | nil => rfl
  | cons t ts ih => rw [List.cons_append, listedAll, listedAll, ih, List.append_assoc]

mutual

theorem listed_map (f : α → β) : ∀ (t : Tree α) (holder : Option α),
    (t.map f).listed (holder.map f) = (t.listed holder).map (Prod.map (Option.map f) f)
  | .node value ts, holder => by
    rw [map, listed, listed, List.map_cons, ← listedAll_mapAll f ts]
    rfl

theorem listedAll_mapAll (f : α → β) : ∀ (ts : List (Tree α)) (holder : Option α),
    listedAll (holder.map f) (mapAll f ts) =
      (listedAll holder ts).map (Prod.map (Option.map f) f)
  | [], _ => rfl
  | t :: ts, holder => by
    rw [mapAll, listedAll, listedAll, List.map_append, listed_map f t, listedAll_mapAll f ts]

end

mutual

theorem listed_some : ∀ (t : Tree α) (holder : α),
    t.listed (some holder) = (t.preorder holder).map (Prod.map some id)
  | .node value ts, holder => by
    rw [listed, preorder, List.map_cons, listedAll_some ts]
    rfl

theorem listedAll_some : ∀ (ts : List (Tree α)) (holder : α),
    listedAll (some holder) ts = (preorderAll holder ts).map (Prod.map some id)
  | [], _ => rfl
  | t :: ts, holder => by
    rw [listedAll, preorderAll, List.map_append, listed_some t, listedAll_some ts]

end

/-- What is listed is the root and then what a walk visits. -/
theorem listed_none (t : Tree α) :
    t.listed none = (none, t.value) :: t.walk.map (Prod.map some id) := by
  rw [walk_eq_descendants]
  cases t with
  | node value ts => rw [listed, listedAll_some]; rfl

end LiquidTemplate.Tree
