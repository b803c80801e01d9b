import TypeSearch.Proofs.Inference.Clauses

/-!
# Settling a unit

A unit settles what its statement has found out: the types of its names, the types of all nodes in
the trees of its answers, and the bindings of the scopes that it has opened. All of these types are
proper. After it, every key in a tree of an answer has a type.
-/

namespace TypeSearch.Infer

open Inference List
open TypeSearch.Tree (Node Site)

variable {ε : Type} {prospect : Prospect} {K : Prop} {covers : Typed → Prop} {found : Answers}
  {fails : ε → Prop} {type : Ty} {types : Std.HashMap Nat Ty} {statement : Infer Statement}
  {f : Ty → Outcome ε Ty} {table : Table}

/-! ### Types in all answers -/

theorem unionOver_meets (hfound : found.Fit True K covers) (htype : type.Proper) :
    (unionOver found type : Outcome ε Ty).Meets Ty.Proper fails := by
  unfold unionOver
  split
  · exact htype
  · have hreduce : ∀ a ∈ found.answers,
        (a.classes.reduce type : Outcome ε Ty).Meets Ty.Proper fails := fun a ha =>
      (Classes.reduce_meets (hfound.each a ha).classes fun _ => htype).imp fun t ht => ht trivial
    refine (Outcome.meets_mapM hreduce).bind fun types htypes => ?_
    have hne : types ≠ [] := by
      rintro rfl
      exact hfound.some (eq_nil_of_length_eq_zero htypes.1.symm)
    rw [Ty.anyOf_of_ne_nil hne]
    exact Ty.proper_unionOf hne htypes.2

theorem repeatedly_meets
    (hf : ∀ type, type.Proper → (f type).Meets Ty.Proper fails) (count : Nat)
    (htype : type.Proper) : (repeatedly f count type).Meets Ty.Proper fails := by
  induction count generalizing type with
  | zero => exact htype
  | succ count ih => exact (hf type htype).bind fun next hnext => ih hnext

theorem fulfils_settleTemplate (hfound : found.Fit True K covers) (generalizes : Bool)
    (template : Template) (K' : Prop) :
    Fulfils prospect K' (fun _ _ => True) (settleTemplate found generalizes template) := by
  have hunion : (unionOver found (.var template.var) : Outcome Failure Ty).Meets Ty.Proper
      fun _ => False := unionOver_meets hfound (.var template.var)
  refine (fulfils_liftM hunion).bind fun _ type _ htype => ?_
  exact fulfils_modifyTable (fun table => table.declares_add _) fun _ hproper => hproper.add htype

theorem fulfils_checkDeterminate (site : Site) (hfound : found.Fit True K covers) (K' : Prop) :
    Fulfils prospect K' (fun _ _ => True) (checkDeterminate site found) := by
  have hreduced : ∀ a ∈ found.answers, (a.reduced : Outcome Failure Ty).Meets (True → ·.Proper)
      fun _ => False := fun a ha => (hfound.each a ha).reduced
  refine (fulfils_liftM (Outcome.meets_mapM hreduced)).bind fun _ types _ _ => ?_
  dsimp only
  split
  · exact (fulfils_issueAt site _).bind fun _ issue _ hcause =>
      (fulfils_report (hcause ▸ Nat.succ_ne_zero 6)).mono fun _ _ _ _ => trivial
  · exact fulfils_pure fun _ _ => trivial

/-! ### Types of nodes -/

structure Records (keys : List Nat) (types next : Std.HashMap Nat Ty) : Prop where
  kept : ∀ key ∈ types, key ∈ next
  added : ∀ key ∈ keys, key ∈ next
  proper : ∀ (key : Nat) (type : Ty), next[key]? = some type → type.Proper

theorem Records.trans {first second : List Nat} {middle last : Std.HashMap Nat Ty}
    (hleft : Records first types middle) (hright : Records second middle last) :
    Records (first ++ second) types last where
  kept key hkey := hright.kept key (hleft.kept key hkey)
  added := forall_mem_append.mpr ⟨fun key hkey => hright.kept key (hleft.added key hkey),
    hright.added⟩
  proper := hright.proper

section Recorded

variable (htypes : ∀ (key : Nat) (type : Ty), types[key]? = some type → type.Proper)
include htypes

theorem records_insert (key : Nat) (htype : type.Proper) :
    Records [key] types (types.insert key type) where
  kept other hother := Std.HashMap.mem_insert.mpr (.inr hother)
  added other hother := by
    rw [mem_singleton.mp hother]
    exact Std.HashMap.mem_insert_self
  proper other found hfound := by
    rw [Std.HashMap.getElem?_insert] at hfound
    split at hfound
    · cases hfound
      exact htype
    · exact htypes other found hfound

theorem recordEntry_meets {classes : Classes} (hclasses : classes.Proper) {entry : Nat × Ty}
    (hentry : entry.2.Proper) :
    (recordEntry classes types entry : Outcome ε _).Meets (Records [entry.1] types) fails := by
  have hreduce : (classes.reduce entry.2 : Outcome ε Ty).Meets Ty.Proper fails :=
    (Classes.reduce_meets (P := True) (fun _ => hclasses) fun _ => hentry).imp
      fun t ht => ht trivial
  refine hreduce.bind fun reduced hreduced => records_insert htypes entry.1 ?_
  split
  · rename_i existing hexisting
    have hexisting := htypes entry.1 existing hexisting
    exact Ty.proper_unionOf (cons_ne_nil _ _) (by simp [hexisting, hreduced])
  · exact hreduced

/-- Recording entries one by one leaves a record of all of them. -/
theorem recordEntries_meets {classes : Classes} (hclasses : classes.Proper)
    {entries : List (Nat × Ty)} (hentries : ∀ entry ∈ entries, entry.2.Proper) :
    (entries.foldlM (recordEntry classes) types : Outcome ε _).Meets
      (Records (entries.map (·.1)) types) fails := by
  induction entries generalizing types with
  | nil => exact ⟨fun _ hkey => hkey, nofun, htypes⟩
  | cons entry entries ih =>
    rw [forall_mem_cons] at hentries
    rw [foldlM_cons]
    refine (recordEntry_meets htypes hclasses hentries.1).bind fun middle hmiddle => ?_
    exact (ih hmiddle.proper hentries.2).imp fun next hnext => hmiddle.trans hnext

end Recorded

theorem fulfils_recordAnswer {a : Answer Typed} (ha : a.Proper) :
    Fulfils prospect K (fun K' _ => K' → ∀ key ∈ a.node.keys, prospect.typed key)
      (recordAnswer a) := by
  intro context state _ hsound _ _
  have hmeets : (a.node.entries.foldlM (recordEntry a.classes) state.types :
      Outcome Failure _).Meets (Records a.node.keys state.types) fun _ => False :=
    recordEntries_meets hsound.types ha.classes ha.node.entries
  change Fulfilled prospect state _ (((liftM (a.node.entries.foldlM (recordEntry a.classes)
    state.types : Outcome Failure _) : Infer _) >>= fun types => modify fun state =>
      { state with types }) context state)
  generalize (a.node.entries.foldlM (recordEntry a.classes) state.types : Outcome Failure _) =
    outcome at hmeets ⊢
  cases outcome with
  | ok types =>
    refine ⟨⟨hsound.develops_refl, ⟨[], (append_nil _).symm, nofun⟩, hmeets.kept,
      hmeets.proper⟩, fun hallows key hkey => hallows.2 key (hmeets.added key hkey)⟩
  | failed failure => exact hmeets.elim
  | halted cause => exact ⟨hsound.wellFormed, fun _ => hmeets⟩

theorem fulfils_recordAnswers {answers : List (Answer Typed)} (hanswers : ∀ a ∈ answers, a.Proper) :
    Fulfils prospect K
      (fun K' _ => K' → ∀ a ∈ answers, ∀ key ∈ a.node.keys, prospect.typed key)
      (answers.forM recordAnswer) := by
  induction answers generalizing K with
  | nil => exact fulfils_pure fun _ _ _ => nofun
  | cons a answers ih =>
    rw [forall_mem_cons] at hanswers
    refine (fulfils_recordAnswer hanswers.1).bind fun K₁ _ _ hfirst => ?_
    refine (ih hanswers.2).mono fun K₂ _ hK hrest hK₂ => ?_
    exact forall_mem_cons.mpr ⟨hfirst (hK hK₂), hrest hK₂⟩

/-! ### Scopes that were opened -/

theorem proper_ofScopes {scopes : List Scope} (hproper : table.Proper)
    (hscopes : ∀ scope ∈ scopes, scope.Proper) :
    { table with scopes := scopes.toArray }.Proper := by
  refine ⟨fun id => ?_, hproper.prelude, hproper.declared⟩
  rw [Table.scopeAt_eq, getElem?_toArray]
  cases hscope : scopes[id]? with
  | none => exact Scope.proper_default
  | some scope => exact hscopes scope (mem_of_getElem? hscope)

theorem proper_of_mem_scopes (hproper : table.Proper) {scope : Scope}
    (hscope : scope ∈ table.scopes.toList) : scope.Proper := by
  obtain ⟨id, hid⟩ := mem_iff_getElem?.mp hscope
  have hat := hproper.scopes id
  rw [Table.scopeAt_eq, ← Array.getElem?_toList, hid] at hat
  exact hat

theorem settleScopes_meets (hproper : table.Proper) (first : Scope.Id)
    (hf : ∀ type, type.Proper → (f type).Meets Ty.Proper fails) :
    (settleScopes table first f).Meets Table.Proper fails := by
  have hopened : ∀ scope ∈ table.scopes.toList.drop first, scope.Proper :=
    fun scope hscope => proper_of_mem_scopes hproper (mem_of_mem_drop hscope)
  have hsettled : ∀ (listings : Binding → Nat), ∀ scope ∈ table.scopes.toList.drop first,
      (do
        let bindings ← scope.bindings.mapM fun binding => do
          return { binding with type := ← repeatedly f (listings binding) binding.type }
        return { scope with bindings } : Outcome ε Scope).Meets Scope.Proper fails := by
    intro listings scope hscope
    have hbindings : ∀ binding ∈ scope.bindings, (do
        return { binding with type := ← repeatedly f (listings binding) binding.type } :
          Outcome ε Binding).Meets (fun settled => settled.type.Proper) fails :=
      fun binding hbinding => (repeatedly_meets hf _
        ((hopened scope hscope).bindings binding hbinding)).bind fun _ htype => htype
    exact (Outcome.meets_mapM hbindings).bind fun settled hsettled =>
      ⟨hsettled.2, (hopened scope hscope).members⟩
  refine (Outcome.meets_mapM (hsettled _)).bind fun settled hall => ?_
  refine proper_ofScopes hproper (forall_mem_append.mpr ⟨fun scope hscope => ?_, hall.2⟩)
  exact proper_of_mem_scopes hproper (mem_of_mem_take hscope)

theorem develops_settleScopes {table next : Table} {first : Scope.Id}
    (hsettle : settleScopes table first f = .ok next) (hwf : table.WellFormed)
    (hbefore : ∀ id ∈ table.path, id < first) (hproper : next.Proper) : table.Develops next := by
  refine ⟨frames_settleScopes hsettle hwf hbefore, hproper, fun id _ => ?_⟩
  obtain ⟨settled, hsettled, rfl⟩ := settleScopes_eq_ok hsettle
  rw [scopeAt_of_forall₂ (forall₂_settled hsettled) id]

/-! ### Units -/

section Before

variable {α β : Type} {first : Scope.Id} {post : Prop → α → Prop} {later : Prop → β → Prop}
  {computation : Infer α} {next : α → Infer β}

/-- The computation fulfils `post` where only scopes before `first` are open. -/
def FulfilsBefore (first : Scope.Id) (prospect : Prospect) (K : Prop) (post : Prop → α → Prop)
    (computation : Infer α) : Prop :=
  ∀ context state, context.Sound → state.Sound → prospect.issues ≤ state.issues.length →
    (prospect.Allows state → K) → (∀ id ∈ state.table.path, id < first) →
      Fulfilled prospect state post (computation context state)

theorem Fulfils.before (hfulfils : Fulfils prospect K post computation) (first : Scope.Id) :
    FulfilsBefore first prospect K post computation :=
  fun context state hcontext hsound hissues hK _ =>
    hfulfils context state hcontext hsound hissues hK

theorem FulfilsBefore.bind (hfulfils : FulfilsBefore first prospect K post computation)
    (hnext : ∀ (K' : Prop) value, (K' → K) → post K' value →
      FulfilsBefore first prospect K' later (next value)) :
    FulfilsBefore first prospect K later (computation >>= next) := by
  intro context state hcontext hsound hissues hK hbefore
  refine (hfulfils context state hcontext hsound hissues hK hbefore).bind
    fun value middle hgrows hpost => ?_
  refine hnext _ value (fun hallows => hK (hallows.before hgrows)) hpost context middle hcontext
    hgrows.sound (hissues.trans hgrows.length_le) id ?_
  rwa [hgrows.table.frame.path_eq]

end Before

variable {node : Node}

theorem fulfils_settleFrom (hfound : found.Fit True K covers) (first : Scope.Id)
    {known result : Prop} (hknown : known → result) :
    FulfilsBefore first prospect known (fun K' _ => K' → result) (settleFrom first found) := by
  intro context state _ hsound _ hK hbefore
  have hmeets : (settleScopes state.table first (unionOver found) : Outcome Failure Table).Meets
      Table.Proper fun _ => False :=
    settleScopes_meets hsound.proper first fun type htype => unionOver_meets hfound htype
  refine settleFrom_cases (fun table hsettle => ?_) (fun _ hfailed => ?_) fun _ hhalted => ?_
  · rw [hsettle] at hmeets
    have hdevelops := develops_settleScopes hsettle hsound.wellFormed hbefore hmeets
    exact ⟨hsound.grows_table hdevelops state.fresher, hknown ∘ hK⟩
  · rw [hfailed] at hmeets
    exact hmeets.elim
  · rw [hhalted] at hmeets
    exact ⟨hsound.wellFormed, fun _ => hmeets⟩

theorem fulfils_settleUnit {statement : Statement} (site : Site) (first : Scope.Id)
    (hstatement : Typings prospect True node K statement.answers) :
    FulfilsBefore first prospect K (fun K' _ => K' → node.Covered prospect.typed)
      (settleUnit site first statement) := by
  have hrecorded : ∀ K₁ : Prop, (K₁ → K) → FulfilsBefore first prospect K₁
      (fun K' _ => K' → node.Covered prospect.typed) (do
        statement.answers.answers.forM recordAnswer
        settleFrom first statement.answers) := by
    intro K₁ hK₁
    have hproper : ∀ a ∈ statement.answers.answers, a.Proper :=
      fun a ha => (hstatement.each a ha).proper trivial
    refine ((fulfils_recordAnswers hproper).before first).bind fun K₂ _ hK₂ hkeys => ?_
    refine fulfils_settleFrom hstatement first fun hK => ?_
    -- one of the answers is enough
    obtain ⟨a, ha⟩ := exists_mem_of_ne_nil _ hstatement.some
    have hshows := (hstatement.each a ha).covers (hK₁ (hK₂ hK))
    exact hshows.mono fun key hmarks => hmarks.elim (hkeys hK a ha key) id
  refine ((fulfils_forM fun template _ K' => ?_).before first).bind fun K₁ _ hK₁ _ =>
    (fulfils_table.before first).bind fun K₂ _ hK₂ _ =>
      ((fulfils_forM fun template _ K' => ?_).before first).bind fun K₃ _ hK₃ _ => ?_
  · exact fulfils_settleTemplate hstatement _ template K'
  · exact fulfils_settleTemplate hstatement _ template K'
  · have hK : K₃ → K := hK₁ ∘ hK₂ ∘ hK₃
    dsimp only
    split
    · exact ((fulfils_checkDeterminate site hstatement K₃).before first).bind
        fun K₄ _ hK₄ _ => hrecorded K₄ (hK ∘ hK₄)
    · exact hrecorded K₃ hK

theorem Fulfils.settled (site : Site) (first : Scope.Id)
    (hfulfils : Fulfils prospect K (fun K' result => Typings prospect True node K' result.answers)
      statement) :
    FulfilsBefore first prospect K (fun K' _ => K' → node.Covered prospect.typed) (do
      match ← Infer.attempt statement with
      | .ok statement => settleUnit site first statement
      | .error _ => bindPending) := by
  refine (hfulfils.attempt.before first).bind fun K' found _ hfound => ?_
  cases found with
  | ok result => exact fulfils_settleUnit site first hfound
  | error failure =>
    refine (fulfils_bindPending.mono fun K'' _ hK'' _ hallowed => ?_).before first
    exact absurd (hK'' hallowed) hfound.2

theorem Fulfils.unit (site : Site)
    (hfulfils : Fulfils prospect K (fun K' result => Typings prospect True node K' result.answers)
      statement) :
    Fulfils prospect K (fun K' _ => K' → node.Covered prospect.typed) (unit site statement) :=
  fun context state hcontext hsound hissues hK =>
    hfulfils.settled site state.table.size context state hcontext hsound hissues hK
      fun _ hid => hsound.wellFormed.lt_size hid

end TypeSearch.Infer
