import Mathlib
import OnePass.Proofs.Conclusion
import OnePass.Proofs.Layouts

namespace OnePass

def totalWords (vs : List Variable) : Int := (vs.map (·.type.words)).sum

@[simp] theorem totalWords_nil : totalWords [] = 0 := rfl

@[simp] theorem totalWords_cons (v : Variable) (vs : List Variable) :
    totalWords (v :: vs) = v.type.words + totalWords vs := rfl

@[simp] theorem totalWords_append (vs us : List Variable) :
    totalWords (vs ++ us) = totalWords vs + totalWords us := by
  simp [totalWords]

/-- A variable takes up words, and its type can be named in a declaration. -/
structure Variable.Placed (v : Variable) : Prop where
  named : ∃ b, v.type.base = some b ∧ b.Named
  words : 1 ≤ v.type.words

/-- Every variable of a list, latest first, starts where those before it end. -/
def Tiles : List Variable → Prop
  | [] => True
  | v :: rest => v.address = wrap (totalWords rest) ∧ Tiles rest

/-- Every mark, innermost first, is where the variables of the scopes around it end. -/
def Marked : List Scope → List Variable → Prop
  | [], vs => ∀ v ∈ vs, v.scope = 0
  | m :: outer, vs => ∃ inner rest, vs = inner ++ rest ∧ (∀ v ∈ inner, v.scope = m.id) ∧
      m.depth = wrap (totalWords rest) ∧ Marked outer rest

theorem totalWords_nonneg {vs : List Variable} (h : ∀ v ∈ vs, v.Placed) : 0 ≤ totalWords vs := by
  refine List.sum_nonneg fun n hn => ?_
  obtain ⟨v, hv, rfl⟩ := List.mem_map.1 hn
  have := (h v hv).words
  omega

/-- Where the words do not wrap around, variables lie one after another. -/
theorem Tiles.bounds {vs : List Variable} (h : Tiles vs) (hp : ∀ v ∈ vs, v.Placed)
    (hlt : totalWords vs < 2 ^ 63) :
    ∀ v ∈ vs, 0 ≤ v.address ∧ v.address + v.type.words ≤ totalWords vs := by
  induction vs with
  | nil => simp
  | cons u vs ih =>
    obtain ⟨hu, hp⟩ := List.forall_mem_cons.1 hp
    have hwords := hu.words
    have hnonneg := totalWords_nonneg hp
    rw [totalWords_cons] at hlt ⊢
    have haddress := h.1
    rw [wrap_eq_self (by omega) (by omega)] at haddress
    refine List.forall_mem_cons.2 ⟨by omega, fun v hv => ?_⟩
    have := ih h.2 hp (by omega) v hv
    omega

theorem Tiles.distinct {vs : List Variable} (h : Tiles vs) (hp : ∀ v ∈ vs, v.Placed)
    (hlt : totalWords vs < 2 ^ 63) :
    ∀ v ∈ vs, ∀ w ∈ vs, v.address = w.address → v = w := by
  induction vs with
  | nil => simp
  | cons u vs ih =>
    obtain ⟨hu, hp⟩ := List.forall_mem_cons.1 hp
    have hwords := hu.words
    have hnonneg := totalWords_nonneg hp
    rw [totalWords_cons] at hlt
    have haddress := h.1
    rw [wrap_eq_self (by omega) (by omega)] at haddress
    have hbounds := h.2.bounds hp (by omega)
    -- the latest variable lies past all others
    have hpast {v : Variable} (hv : v ∈ vs) : v.address ≠ u.address := by
      have := hbounds v hv
      have := (hp v hv).words
      omega
    intro v hv w hw heq
    rcases List.mem_cons.1 hv with rfl | hv' <;> rcases List.mem_cons.1 hw with rfl | hw'
    · rfl
    · exact absurd heq.symm (hpast hw')
    · exact absurd heq (hpast hv')
    · exact ih h.2 hp (by omega) v hv' w hw' heq

theorem Marked.scope_mem {scopes : List Scope} {vs : List Variable} (h : Marked scopes vs) :
    ∀ v ∈ vs, v.scope = 0 ∨ v.scope ∈ scopes.map (·.id) := by
  induction scopes generalizing vs with
  | nil => exact fun v hv => .inl (h v hv)
  | cons m outer ih =>
    obtain ⟨inner, rest, rfl, hinner, -, hrest⟩ := h
    intro v hv
    rcases List.mem_append.1 hv with hv | hv
    · exact .inr (by simp [hinner v hv])
    · rcases ih hrest v hv with h | h
      · exact .inl h
      · exact .inr (List.mem_cons_of_mem _ h)

namespace Frame

variable {f : Frame} {m : Scope} {outer : List Scope}

/-- A frame in which the visible variables tile the slots. Scopes have ids of their own, and no id
is given twice. -/
structure Tiled (f : Frame) : Prop where
  placed : ∀ v ∈ f.vars, v.Placed
  tiles : Tiles f.visible
  marks : Marked f.scopes f.visible
  distinct : (f.scopes.map (·.id)).Nodup
  opened : ∀ m ∈ f.scopes, 0 < m.id ∧ m.id < f.next ∧ m.id ∉ f.closed
  closed : ∀ id ∈ f.closed, 0 < id ∧ id < f.next
  next : 0 < f.next

theorem tiled_fresh : ({} : Frame).Tiled :=
  ⟨by simp, trivial, by simp [Marked, visible], by simp, by simp, by simp, by decide⟩

theorem Tiled.visible (h : f.Tiled) : ∀ v ∈ f.visible, v.Placed :=
  fun v hv => h.placed v (List.mem_filter.1 hv).1

theorem Tiled.typed (h : f.Tiled) : ∀ v ∈ f.vars, v.type.base.isSome := by
  intro v hv
  obtain ⟨b, hb, -⟩ := (h.placed v hv).named
  simp [hb]

theorem Tiled.depth (h : f.Tiled) (depth : Int) : Tiled { f with depth } :=
  ⟨h.placed, h.tiles, h.marks, h.distinct, h.opened, h.closed, h.next⟩

theorem Tiled.scope_open (h : f.Tiled) : f.closed.contains f.scope = false := by
  have hmem : f.scope ∉ f.closed := by
    unfold scope
    cases hscopes : f.scopes with
    | nil =>
      intro hc
      have := (h.closed 0 hc).1
      omega
    | cons m outer => exact (h.opened m (by simp [hscopes])).2.2
  simpa using hmem

theorem Tiled.covers (h : f.Tiled) : f.covers (wrap (totalWords f.visible)) = false := by
  have htiles := h.tiles
  unfold Frame.covers
  cases hvis : f.visible with
  | nil => rfl
  | cons last rest =>
    rw [hvis] at htiles
    simp [htiles.1, add_comm]

theorem liveWords_eq_wrap (h : ∀ v ∈ f.vars, v.type.base.isSome) :
    f.liveWords = .ok (wrap (totalWords f.visible)) := by
  rw [liveWords_eq h, live, List.map_reverse, List.sum_reverse]
  rfl

/-- A variable declared where the visible ones end continues the tiling. -/
theorem Tiled.add (h : f.Tiled) (name : String) (line : Int) {type : Ty}
    (htype : ∃ b, type.base = some b ∧ b.Named) (hwords : 1 ≤ type.words) :
    (f.add name line type (wrap (totalWords f.visible))).2.Tiled := by
  have hvisible := visible_add h.scope_open name line type (wrap (totalWords f.visible))
  refine ⟨List.forall_mem_cons.2 ⟨⟨htype, hwords⟩, h.placed⟩, ?_, ?_, h.distinct, h.opened,
    h.closed, h.next⟩
  · rw [hvisible]
    exact ⟨rfl, h.tiles⟩
  · rw [hvisible]
    have hmarks := h.marks
    unfold Frame.add scope
    dsimp only
    cases hscopes : f.scopes with
    | nil =>
      rw [hscopes] at hmarks
      exact List.forall_mem_cons.2 ⟨rfl, hmarks⟩
    | cons m outer =>
      rw [hscopes] at hmarks
      obtain ⟨inner, rest, heq, hinner, hdepth, hrest⟩ := hmarks
      exact ⟨_ :: inner, rest, by rw [heq]; rfl, List.forall_mem_cons.2 ⟨rfl, hinner⟩, hdepth,
        hrest⟩

theorem Tiled.enter (h : f.Tiled) (hdepth : f.depth = wrap (totalWords f.visible)) :
    f.enter.2.Tiled := by
  have hnew : f.next ∉ f.closed := fun hc => by
    have := (h.closed f.next hc).2
    omega
  refine ⟨h.placed, h.tiles, ⟨[], f.visible, rfl, by simp, hdepth, h.marks⟩, ?_, ?_, ?_, ?_⟩
  · refine List.nodup_cons.2 ⟨fun hmem => ?_, h.distinct⟩
    obtain ⟨m, hm, hid⟩ := List.mem_map.1 hmem
    have hlt := (h.opened m hm).2.1
    exact absurd hid hlt.ne
  · refine List.forall_mem_cons.2 ⟨⟨h.next, by simp [Frame.enter], hnew⟩, fun m hm => ?_⟩
    obtain ⟨h₀, h₁, h₂⟩ := h.opened m hm
    exact ⟨h₀, by simp only [Frame.enter]; omega, h₂⟩
  · intro id hid
    obtain ⟨h₀, h₁⟩ := h.closed id hid
    exact ⟨h₀, by simp only [Frame.enter]; omega⟩
  · have := h.next
    simp only [Frame.enter]
    omega

theorem visible_closing : (f.closing m outer).visible = f.visible.filter (·.scope ≠ m.id) := by
  unfold visible isLive closing
  rw [List.filter_filter]
  congr 1
  funext v
  simp

/-- What is hidden with the innermost scope are the variables declared in it. -/
theorem Tiled.closing (h : f.Tiled) (hscopes : f.scopes = m :: outer) :
    (f.closing m outer).Tiled ∧ m.depth = wrap (totalWords (f.closing m outer).visible) ∧
      ∃ inner, f.visible = inner ++ (f.closing m outer).visible ∧ ∀ v ∈ inner, v.scope = m.id := by
  obtain ⟨hid, hdistinct⟩ : m.id ∉ outer.map (·.id) ∧ (outer.map (·.id)).Nodup := by
    have := h.distinct
    rw [hscopes] at this
    exact List.nodup_cons.1 this
  obtain ⟨hm, houter⟩ := List.forall_mem_cons.1 (hscopes ▸ h.opened)
  have hmarks := h.marks
  rw [hscopes] at hmarks
  obtain ⟨inner, rest, heq, hinner, hdepth, hrest⟩ := hmarks
  -- ids are distinct, so the filter drops the variables of this scope and no others
  have hvisible : (f.closing m outer).visible = rest := by
    have hkeep : ∀ v ∈ rest, v.scope ≠ m.id := by
      intro v hv hscope
      rcases hrest.scope_mem v hv with h₀ | h₀
      · omega
      · exact hid (hscope ▸ h₀)
    rw [visible_closing, heq, List.filter_append, List.filter_eq_nil_iff.2, List.nil_append,
      List.filter_eq_self.2]
    · simpa using hkeep
    · simpa using hinner
  have htiles : ∀ vs : List Variable, Tiles (vs ++ rest) → Tiles rest := by
    intro vs
    induction vs with
    | nil => exact id
    | cons v vs ih => exact fun ht => ih ht.2
  rw [hvisible]
  refine ⟨⟨h.placed, ?_, ?_, hdistinct, fun n hn => ?_, ?_, h.next⟩, hdepth, inner, heq, hinner⟩
  · rw [hvisible]
    exact htiles inner (heq ▸ h.tiles)
  · rw [hvisible]
    exact hrest
  · obtain ⟨h₀, h₁, h₂⟩ := houter n hn
    refine ⟨h₀, h₁, fun hc => ?_⟩
    rcases List.mem_cons.1 hc with hc | hc
    · exact hid (hc ▸ List.mem_map_of_mem hn)
    · exact h₂ hc
  · exact List.forall_mem_cons.2 ⟨⟨hm.1, hm.2.1⟩, h.closed⟩

/-- The live variables of the outermost scope and of the scopes `outer`, in declaration order. -/
def outside (f : Frame) (outer : List Scope) : List Variable :=
  f.live.filter fun v => v.scope = 0 ∨ v.scope ∈ outer.map (·.id)

/-- The live variables occupy consecutive slots from zero on, and the marks of the open scopes are
where the variables around them end. Words are added up as `count` tells. -/
structure LaidOut (count : Int → Int) (f : Frame) : Prop where
  address : ∀ earlier v later, f.live = earlier ++ v :: later →
    v.address = count (totalWords earlier)
  depth : f.depth = count (totalWords f.live)
  words : f.liveWords = .ok f.depth
  mark : ∀ inner m outer, f.scopes = inner ++ m :: outer →
    m.depth = count (totalWords (f.outside outer))
  released : ∀ m outer, f.scopes = m :: outer → ∃ g,
    f.exit = .ok (count (totalWords (f.live.filter (·.scope = m.id))), g) ∧
      g.live = f.live.filter (·.scope ≠ m.id)
  sized : ∀ v ∈ f.live, ∃ n, v.size = .ok n ∧ 1 ≤ n
  typed : ∀ v ∈ f.live, ∃ b, v.type.base = some b ∧ b.prim ≠ .untyped ∧
    (b.prim = .void → v.type.depth ≠ 0)

theorem live_closing : (f.closing m outer).live = f.live.filter (·.scope ≠ m.id) := by
  rw [live, visible_closing, live, List.filter_reverse]

theorem exit_eq (h : f.scopes = m :: outer) :
    f.exit = .ok (wrap (f.depth - m.depth), f.closing m outer) := by
  simp [exit, h, closing]

theorem Tiles.address {v : Variable} {vs us : List Variable} (h : Tiles (vs ++ v :: us)) :
    v.address = wrap (totalWords us) := by
  induction vs with
  | nil => exact h.1
  | cons u vs ih => exact ih h.2

/-- A mark is where the variables of the scopes around it end, however many scopes are inside. -/
theorem Marked.mark {inner : List Scope} {vs : List Variable} (h : Marked (inner ++ m :: outer) vs)
    (hid : ((inner ++ m :: outer).map (·.id)).Nodup) (hpos : ∀ n ∈ inner ++ m :: outer, 0 < n.id) :
    m.depth = wrap (totalWords
      (vs.filter fun v => v.scope = 0 ∨ v.scope ∈ outer.map (·.id))) := by
  -- variables of a scope inside are passed over
  have hskip {n : Scope} {us rest : List Variable} (hus : ∀ v ∈ us, v.scope = n.id) (hn : 0 < n.id)
      (hout : n.id ∉ outer.map (·.id)) :
      (us ++ rest).filter (fun v => v.scope = 0 ∨ v.scope ∈ outer.map (·.id)) =
        rest.filter fun v => v.scope = 0 ∨ v.scope ∈ outer.map (·.id) := by
    rw [List.filter_append, List.filter_eq_nil_iff.2, List.nil_append]
    intro v hv
    rw [hus v hv]
    simp [hout]
    omega
  induction inner generalizing vs with
  | nil =>
    obtain ⟨us, rest, rfl, hus, hdepth, hrest⟩ := h
    rw [hskip hus (hpos m (by simp)) (List.nodup_cons.1 hid).1, hdepth, List.filter_eq_self.2]
    simpa using hrest.scope_mem
  | cons n inner ih =>
    obtain ⟨us, rest, rfl, hus, -, hrest⟩ := h
    have hout : n.id ∉ outer.map (·.id) := fun hmem => (List.nodup_cons.1 hid).1 (by simp [hmem])
    rw [hskip hus (hpos n (by simp)) hout]
    exact ih hrest (List.nodup_cons.1 hid).2 fun k hk => hpos k (List.mem_cons_of_mem _ hk)

theorem LaidOut.exact (h : f.LaidOut wrap) (hp : ∀ v ∈ f.live, v.Placed)
    (hlt : totalWords f.live < 2 ^ 63) : f.LaidOut id := by
  have hsum {us : List Variable} (hus : us.Sublist f.live) :
      wrap (totalWords us) = totalWords us := by
    have hle : totalWords us ≤ totalWords f.live := by
      refine (hus.map _).sum_le_sum fun n hn => ?_
      obtain ⟨v, hv, rfl⟩ := List.mem_map.1 hn
      exact Int.le_trans (by decide) (hp v hv).words
    have hnonneg := totalWords_nonneg fun v hv => hp v (hus.subset hv)
    exact wrap_eq_self (by omega) (by omega)
  refine ⟨fun earlier v later hlive => ?_, h.depth.trans (hsum (List.Sublist.refl _)), h.words,
    fun inner m outer hs => (h.mark inner m outer hs).trans (hsum List.filter_sublist),
    fun m outer hs => ?_, h.sized, h.typed⟩
  · rw [h.address earlier v later hlive, hsum (hlive ▸ List.sublist_append_left _ _)]
    rfl
  · obtain ⟨g, hexit, hlive⟩ := h.released m outer hs
    exact ⟨g, by rw [hexit, hsum List.filter_sublist]; rfl, hlive⟩

end Frame

end OnePass
