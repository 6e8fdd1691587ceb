import Mathlib.Logic.Relation
import Wiring.Proofs.Progress
import Wiring.Proofs.Resolving

/-!
# Depth-first tours

A tour enters nodes depth first and passes over those whose key it has seen.  Wherever the edges
lead in circles, it leaves no successor of an entered node unseen.  So it enters all that can be
reached from where it starts, if nothing was seen before and keys tell nodes apart.
-/

namespace Wiring

open Relation

variable {N K I : Type} {key : N → K} {next : N → List N}

/-- From each of the nodes in turn the tour enters what has not been seen, in the order listed, and
goes on to its successors first.  The keys seen before and after it are given. -/
inductive Tour (key : N → K) (next : N → List N) : List K → List N → List N → List K → Prop
  | done (seen : List K) : Tour key next seen [] [] seen
  | pass {n : N} {ns us : List N} {seen seen' : List K} (hseen : key n ∈ seen)
      (rest : Tour key next seen ns us seen') : Tour key next seen (n :: ns) us seen'
  | enter {n : N} {ns us vs : List N} {seen mid seen' : List K} (hfresh : key n ∉ seen)
      (below : Tour key next (key n :: seen) (next n) us mid)
      (rest : Tour key next mid ns vs seen') :
      Tour key next seen (n :: ns) (n :: (us ++ vs)) seen'

/-- The second node is a successor of the first. -/
def Edge (next : N → List N) (a b : N) : Prop := b ∈ next a

namespace Tour

variable {ns us vs : List N} {seen seen' seen'' : List K}

theorem mem_seen_iff (h : Tour key next seen ns us seen') {k : K} :
    k ∈ seen' ↔ k ∈ seen ∨ ∃ u ∈ us, key u = k := by
  induction h with
  | done seen => simp
  | pass _ _ ih => exact ih
  | enter _ _ _ ihbelow ihrest =>
    rw [ihrest, ihbelow]
    grind

/-- Nothing is forgotten. -/
theorem seen_subset (h : Tour key next seen ns us seen') : seen ⊆ seen' :=
  fun _ hk => h.mem_seen_iff.2 (.inl hk)

/-- What is entered had not been seen. -/
theorem key_not_mem (h : Tour key next seen ns us seen') : ∀ u ∈ us, key u ∉ seen := by
  induction h with
  | done seen => simp
  | pass _ _ ih => exact ih
  | enter hfresh below _ ihbelow ihrest =>
    intro u hu
    rw [List.mem_cons, List.mem_append] at hu
    obtain rfl | hu | hu := hu
    · exact hfresh
    · exact fun hk => ihbelow u hu (List.mem_cons_of_mem _ hk)
    · exact fun hk => ihrest u hu (below.seen_subset (List.mem_cons_of_mem _ hk))

/-- Where the tour starts has been seen at its end. -/
theorem covers_start (h : Tour key next seen ns us seen') : ∀ n ∈ ns, key n ∈ seen' := by
  induction h with
  | done seen => simp
  | pass hseen rest ih =>
    intro n hn
    obtain rfl | hn := List.mem_cons.1 hn
    · exact rest.seen_subset hseen
    · exact ih n hn
  | enter _ below rest _ ihrest =>
    intro n hn
    obtain rfl | hn := List.mem_cons.1 hn
    · exact rest.seen_subset (below.seen_subset List.mem_cons_self)
    · exact ihrest n hn

/-- So has what the entered nodes lead to. -/
theorem covers_next (h : Tour key next seen ns us seen') :
    ∀ u ∈ us, ∀ n ∈ next u, key n ∈ seen' := by
  induction h with
  | done seen => simp
  | pass _ _ ih => exact ih
  | enter _ below rest ihbelow ihrest =>
    intro u hu n hn
    rw [List.mem_cons, List.mem_append] at hu
    obtain rfl | hu | hu := hu
    · exact rest.seen_subset (below.covers_start n hn)
    · exact rest.seen_subset (ihbelow u hu n hn)
    · exact ihrest u hu n hn

/-- One tour after another. -/
theorem append {ms : List N} (h : Tour key next seen ns us seen')
    (h' : Tour key next seen' ms vs seen'') :
    Tour key next seen (ns ++ ms) (us ++ vs) seen'' := by
  induction h with
  | done seen => exact h'
  | pass hseen _ ih => exact .pass hseen (ih h')
  | enter hfresh below _ _ ihrest =>
    rw [List.cons_append, List.cons_append, List.append_assoc]
    exact .enter hfresh below (ihrest h')

/-- Only what can be reached over nodes that had not been seen is entered. -/
theorem exists_fresh_path (h : Tour key next seen ns us seen') :
    ∀ u ∈ us, ∃ n ∈ ns, key n ∉ seen ∧
      ReflTransGen (fun a b => Edge next a b ∧ key b ∉ seen) n u := by
  induction h with
  | done seen => simp
  | pass _ _ ih =>
    intro u hu
    obtain ⟨n, hn, hpath⟩ := ih u hu
    exact ⟨n, List.mem_cons_of_mem _ hn, hpath⟩
  | enter hfresh below _ ihbelow ihrest =>
    have hkept := List.subset_of_cons_subset below.seen_subset
    intro u hu
    rw [List.mem_cons, List.mem_append] at hu
    obtain rfl | hu | hu := hu
    · exact ⟨_, List.mem_cons_self, hfresh, .refl⟩
    · obtain ⟨n, hn, hnew, hpath⟩ := ihbelow u hu
      refine ⟨_, List.mem_cons_self, hfresh, .head ⟨hn, List.not_mem_of_not_mem_cons hnew⟩ ?_⟩
      exact ReflTransGen.mono
        (fun _ _ hstep => ⟨hstep.1, List.not_mem_of_not_mem_cons hstep.2⟩) _ _ hpath
    · obtain ⟨n, hn, hnew, hpath⟩ := ihrest u hu
      refine ⟨n, List.mem_cons_of_mem _ hn, mt (hkept ·) hnew, ?_⟩
      exact ReflTransGen.mono (fun _ _ hstep => ⟨hstep.1, mt (hkept ·) hstep.2⟩) _ _ hpath

/-- Only what can be reached is entered. -/
theorem exists_path (h : Tour key next seen ns us seen') :
    ∀ u ∈ us, ∃ n ∈ ns, ReflTransGen (Edge next) n u := by
  intro u hu
  obtain ⟨n, hn, _, hpath⟩ := h.exists_fresh_path u hu
  exact ⟨n, hn, ReflTransGen.mono (fun _ _ hstep => hstep.1) _ _ hpath⟩

/-- The tour starts among nodes that `P` holds of and that lead to such only.  Of these, what `p`
shows of one settles what it leads to, and its key settles what `p` shows.  Then each node that can
be reached is entered, as far as `p` shows. -/
theorem exists_entered_within (h : Tour key next [] ns us seen') {P : N → Prop} {p : N → I}
    (hstart : ∀ n ∈ ns, P n) (hstep : ∀ {a b : N}, P a → Edge next a b → P b)
    (hnext : ∀ {a b : N}, P a → P b → p a = p b → (next a).map p = (next b).map p)
    (hkey : ∀ {a b : N}, P a → P b → key a = key b → p a = p b)
    {n x : N} (hn : n ∈ ns) (hpath : ReflTransGen (Edge next) n x) : ∃ u ∈ us, p u = p x := by
  have hseen {k : K} (hk : k ∈ seen') : ∃ u ∈ us, key u = k := by
    obtain hk | hk := h.mem_seen_iff.1 hk
    · cases hk
    · exact hk
  have hwithin {m u : N} (hm : m ∈ ns) (hmu : ReflTransGen (Edge next) m u) : P u := by
    induction hmu with
    | refl => exact hstart m hm
    | tail _ hedge ih => exact hstep ih hedge
  have hentered {u : N} (hu : u ∈ us) : P u := by
    obtain ⟨m, hm, hmu⟩ := h.exists_path u hu
    exact hwithin hm hmu
  induction hpath with
  | refl =>
    obtain ⟨u, hu, hukey⟩ := hseen (h.covers_start n hn)
    exact ⟨u, hu, hkey (hentered hu) (hstart n hn) hukey⟩
  | tail hpath hedge ih =>
    rename_i x y
    obtain ⟨u, hu, hux⟩ := ih
    have hy : p y ∈ (next u).map p := by
      rw [hnext (hentered hu) (hwithin hn hpath) hux]
      exact List.mem_map_of_mem hedge
    -- `y` itself need not follow `u`, but a node that looks like it does
    obtain ⟨y', hy', hy'y⟩ := List.mem_map.1 hy
    obtain ⟨z, hz, hzkey⟩ := hseen (h.covers_next u hu y' hy')
    exact ⟨z, hz, (hkey (hentered hz) (hstep (hentered hu) hy') hzkey).trans hy'y⟩

/-- What `p` shows of a node settles what it leads to, and among the nodes that can be reached the
key settles what `p` shows.  Then each of them is entered, as far as `p` shows. -/
theorem exists_entered (h : Tour key next [] ns us seen') {p : N → I}
    (hnext : ∀ {a b : N}, p a = p b → (next a).map p = (next b).map p)
    (hkey : ∀ {a b m n : N}, m ∈ ns → ReflTransGen (Edge next) m a → n ∈ ns →
      ReflTransGen (Edge next) n b → key a = key b → p a = p b)
    {n x : N} (hn : n ∈ ns) (hpath : ReflTransGen (Edge next) n x) : ∃ u ∈ us, p u = p x :=
  h.exists_entered_within (P := fun x => ∃ m ∈ ns, ReflTransGen (Edge next) m x)
    (fun m hm => ⟨m, hm, .refl⟩) (fun ⟨m, hm, hma⟩ hedge => ⟨m, hm, hma.tail hedge⟩)
    (fun _ _ => hnext) (fun ⟨_, hm, hma⟩ ⟨_, hm', hmb⟩ => hkey hm hma hm' hmb) hn hpath

/-- How a tour goes is settled by where it starts and what has been seen. -/
theorem unique (h : Tour key next seen ns us seen') (h' : Tour key next seen ns vs seen'') :
    us = vs ∧ seen' = seen'' := by
  induction h generalizing vs seen'' with
  | done seen =>
    cases h'
    exact ⟨rfl, rfl⟩
  | pass hseen _ ih =>
    cases h' with
    | pass _ rest => exact ih rest
    | enter hfresh _ _ => exact absurd hseen hfresh
  | enter hfresh _ _ ihbelow ihrest =>
    cases h' with
    | pass hseen _ => exact absurd hseen hfresh
    | enter _ below rest =>
      obtain ⟨rfl, rfl⟩ := ihbelow below
      obtain ⟨rfl, rfl⟩ := ihrest rest
      exact ⟨rfl, rfl⟩

end Tour

/-! ## What is left to be seen -/

/-- How many of the names are not in the list. -/
def unseen (U : Finset String) (seen : List String) : Nat :=
  unmarked U fun name => decide (name ∈ seen)

section

variable {U : Finset String} {seen seen' : List String} {name : String}

theorem unseen_le_card : unseen U seen ≤ U.card := unmarked_le_card

theorem unseen_le (h : seen ⊆ seen') : unseen U seen' ≤ unseen U seen :=
  unmarked_le fun _ _ hmem => decide_eq_true (h (of_decide_eq_true hmem))

theorem unseen_cons_lt (hname : name ∈ U) (hfresh : name ∉ seen) :
    unseen U (name :: seen) < unseen U seen :=
  unmarked_lt (fun _ _ hmem => decide_eq_true (List.mem_cons_of_mem _ (of_decide_eq_true hmem)))
    hname (decide_eq_false hfresh) (decide_eq_true List.mem_cons_self)

end

/-! ## Walks over classes -/

namespace Walk

variable {resolve : String → Option ClassInfo}

/-- The names that the class of that name leads to. -/
def nextNames (resolve : String → Option ClassInfo) (next : ClassInfo → List String)
    (name : String) : List String :=
  (resolve name).elim [] next

/-- A walk that may go deep enough is a tour of names, and finds the classes of those that are
entered. -/
theorem visit_tour (next : ClassInfo → List String) {U : Finset String}
    (hU : ∀ {name c}, resolve name = some c → name ∈ U)
    {depth : Nat} {w : Walk} (names : List String) (hdepth : unseen U w.seen < depth) :
    ∃ us seen, Tour id (nextNames resolve next) w.seen names us seen ∧
      visit resolve next depth w names = ⟨seen, w.found ++ us.filterMap resolve⟩ := by
  induction depth generalizing w names with
  | zero => cases hdepth
  | succ depth ih =>
    induction names generalizing w with
    | nil => exact ⟨[], w.seen, .done _, by simp [visit]⟩
    | cons name names ihnames =>
      rw [visit, List.foldl_cons]
      by_cases hseen : name ∈ w.seen
      · obtain ⟨us, seen, htour, hvisit⟩ := ihnames hdepth
        rw [if_pos hseen, ← visit]
        exact ⟨us, seen, .pass hseen htour, hvisit⟩
      · rw [if_neg hseen]
        have hgrows : unseen U (name :: w.seen) ≤ unseen U w.seen :=
          unseen_le (List.subset_cons_self name w.seen)
        cases hname : resolve name with
        | none =>
          obtain ⟨us, seen, htour, hvisit⟩ := ihnames (w := { w with seen := name :: w.seen })
            (Nat.lt_of_le_of_lt hgrows hdepth)
          have hbelow : Tour id (nextNames resolve next) (name :: w.seen)
              (nextNames resolve next name) [] (name :: w.seen) := by
            rw [nextNames, hname]
            exact .done _
          refine ⟨name :: us, seen, .enter hseen hbelow htour, ?_⟩
          rw [← visit, hvisit, List.filterMap_cons, hname]
        | some c =>
          obtain ⟨us, mid, hbelow, hvisitbelow⟩ :=
            ih (w := ⟨name :: w.seen, w.found ++ [c]⟩) (next c)
              (Nat.lt_of_lt_of_le (unseen_cons_lt (hU hname) hseen) (Nat.le_of_lt_succ hdepth))
          have hmid : unseen U mid ≤ unseen U w.seen :=
            (unseen_le hbelow.seen_subset).trans hgrows
          obtain ⟨vs, seen, htour, hvisit⟩ :=
            ihnames (w := ⟨mid, w.found ++ [c] ++ us.filterMap resolve⟩)
              (Nat.lt_of_le_of_lt hmid hdepth)
          have hbelow' : Tour id (nextNames resolve next) (name :: w.seen)
              (nextNames resolve next name) us mid := by
            rw [nextNames, hname]
            exact hbelow
          refine ⟨name :: (us ++ vs), seen, .enter hseen hbelow' htour, ?_⟩
          dsimp only
          rw [hvisitbelow, ← visit, hvisit, List.filterMap_cons, hname, List.filterMap_append]
          simp

/-- Going deeper than that changes nothing. -/
theorem visit_eq_of_lt (next : ClassInfo → List String) {U : Finset String}
    (hU : ∀ {name c}, resolve name = some c → name ∈ U)
    {depth depth' : Nat} {w : Walk} (names : List String) (hdepth : unseen U w.seen < depth)
    (hdepth' : unseen U w.seen < depth') :
    visit resolve next depth w names = visit resolve next depth' w names := by
  obtain ⟨us, seen, htour, hvisit⟩ := visit_tour next hU names hdepth
  obtain ⟨us', seen', htour', hvisit'⟩ := visit_tour next hU names hdepth'
  obtain ⟨rfl, rfl⟩ := htour.unique htour'
  rw [hvisit, hvisit']

/-- The second class stands under a name that the first one leads to and that is not barred. -/
def Leads (resolve : String → Option ClassInfo) (next : ClassInfo → List String)
    (barred : List String) (c d : ClassInfo) : Prop :=
  ∃ name ∈ next c, name ∉ barred ∧ resolve name = some d

/-- A path along names is a chain of classes. -/
theorem transGen_leads {next : ClassInfo → List String} {barred : List String} {c d : ClassInfo}
    {start name : String} (hstart : start ∈ next c) (hfree : start ∉ barred)
    (hpath : ReflTransGen (fun a b => Edge (nextNames resolve next) a b ∧ b ∉ barred) start name)
    (hd : resolve name = some d) : TransGen (Leads resolve next barred) c d := by
  induction hpath generalizing d with
  | refl => exact .single ⟨start, hstart, hfree, hd⟩
  | tail _ hstep ih =>
    rename_i before after _
    obtain ⟨hstep, hafter⟩ := hstep
    rw [Edge, nextNames] at hstep
    cases hbefore : resolve before with
    | none =>
      rw [hbefore] at hstep
      cases hstep
    | some b =>
      rw [hbefore] at hstep
      exact (ih hbefore).tail ⟨after, hstep, hafter, hd⟩

/-- A walk that may go deep enough finds the classes that a chain over names that are not barred
leads to. -/
theorem mem_found_iff (next : ClassInfo → List String) {U : Finset String}
    (hU : ∀ {name c}, resolve name = some c → name ∈ U) {depth : Nat} {barred : List String}
    (hdepth : unseen U barred < depth) {c d : ClassInfo} :
    d ∈ (visit resolve next depth { seen := barred } (next c)).found ↔
      TransGen (Leads resolve next barred) c d := by
  obtain ⟨us, seen, htour, hvisit⟩ :=
    visit_tour next hU (w := { seen := barred }) (next c) hdepth
  have hmem (d : ClassInfo) :
      d ∈ (visit resolve next depth { seen := barred } (next c)).found ↔
        ∃ name ∈ us, resolve name = some d := by
    rw [hvisit]
    simp
  have hentered {name : String} (hname : name ∈ seen) (hfree : name ∉ barred) : name ∈ us := by
    obtain hbarred | ⟨_, hentered, rfl⟩ := htour.mem_seen_iff.1 hname
    · exact absurd hbarred hfree
    · exact hentered
  constructor
  · intro hd
    obtain ⟨name, hname, hd⟩ := (hmem d).1 hd
    obtain ⟨start, hstart, hfree, hpath⟩ := htour.exists_fresh_path name hname
    exact transGen_leads hstart hfree hpath hd
  · intro hchain
    rw [hmem]
    -- each class of the chain stands under a name that was entered
    induction hchain with
    | single hstep =>
      obtain ⟨name, hname, hfree, hd⟩ := hstep
      exact ⟨name, hentered (htour.covers_start name hname) hfree, hd⟩
    | tail _ hstep ih =>
      obtain ⟨before, hbefore, hb⟩ := ih
      obtain ⟨name, hname, hfree, hd⟩ := hstep
      have hnext : name ∈ nextNames resolve next before := by
        rw [nextNames, hb]
        exact hname
      exact ⟨name, hentered (htour.covers_next before hbefore name hnext) hfree, hd⟩

end Walk

/-! ## Walks over the classes that a resolver knows -/

namespace Resolver

/-- The names of the classes that a resolver knows. -/
def knownNames (r : Resolver) : Finset String := (r.infos.map (·.name)).toFinset

variable {r : Resolver} {name : String} {c : ClassInfo}

theorem mem_knownNames (h : c ∈ r.infos) : c.name ∈ r.knownNames :=
  List.mem_toFinset.2 (List.mem_map_of_mem h)

theorem card_knownNames_lt : r.knownNames.card + 2 < r.maxDepth := by
  have hcard : r.knownNames.card ≤ r.infos.length := by
    rw [← List.length_map (f := (·.name))]
    exact List.toFinset_card_le _
  have hlength : r.infos.length =
      r.reader.index.size + r.types.types.length + builtins.length := by
    rw [infos, List.length_append, List.length_append, List.length_map, Index.size]
  rw [maxDepth]
  omega

theorem mem_of_hierarchy? {preferLoaded : Bool} (h : r.hierarchy? preferLoaded name = some c) :
    c ∈ r.infos ∧ c.name = name := by
  have hloaded (h : (r.types.find? name).map (·.info) = some c) : c ∈ r.infos ∧ c.name = name := by
    obtain ⟨t, ht, rfl⟩ := Option.map_eq_some_iff.1 h
    exact ⟨mem_infos.2 (.inl (.inr (List.mem_map_of_mem (TypeTable.mem_of_find? ht)))),
      TypeTable.name_of_find? ht⟩
  have hread (h : r.hierarchy? false name = some c) : c ∈ r.infos ∧ c.name = name := by
    rw [hierarchy?, if_neg Bool.false_ne_true] at h
    split at h
    · rename_i c' hc
      obtain rfl := Option.some.inj h
      exact ⟨mem_infos.2 (.inl (.inl (Reader.mem_of_read hc))), Reader.name_of_read hc⟩
    · split at h
      · obtain h | ⟨_, h⟩ := (Option.orElse_eq_some _ _ _).1 h
        · exact hloaded h
        · exact ⟨mem_infos.2 (.inr (mem_of_builtin? h)), name_of_builtin? h⟩
      · cases h
  cases preferLoaded with
  | false => exact hread h
  | true =>
    have h : ((r.types.find? name).map (·.info) <|> r.hierarchy? false name) = some c := h
    obtain h | ⟨_, h⟩ := (Option.orElse_eq_some _ _ _).1 h
    · exact hloaded h
    · exact hread h

theorem mem_knownNames_of_hierarchy? {preferLoaded : Bool}
    (h : r.hierarchy? preferLoaded name = some c) : name ∈ r.knownNames := by
  obtain ⟨hmem, rfl⟩ := mem_of_hierarchy? h
  exact mem_knownNames hmem

theorem unseen_knownNames_lt {seen : List String} : unseen r.knownNames seen < r.maxDepth := by
  have hcard := r.card_knownNames_lt
  have hunseen : unseen r.knownNames seen ≤ r.knownNames.card := unseen_le_card
  omega

end Resolver
end Wiring
