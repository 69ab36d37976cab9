import ShouldIAsync.IntelProcTrace.ExportTables

/-!
# The tables and the views of an export

The exporter creates its tables and views for the options, and `trace_end` drops those that the
trace had nothing for. What is left fits together: a table that may be dropped is left exactly if
something was filed in it, but that those of the power events stay together, and a view is left
exactly if everything it selects from is (`export_schema`).
-/

namespace ShouldIAsync.IntelProcTrace.Export

variable {o : Options} {b : Buffers} {cs : List Callback} {t : Table} {db db' db'' : Db}

/-- What a view may select from. -/
inductive Source
  | table (t : Table)
  | view (t : Table)

/-- The `FROM` clauses of a view, with those of its subqueries. -/
def View.reads : View → List Source
  | .view .machines => [.table .machines]
  | .view .dsos => [.view .machines, .table .dsos]
  | .view .symbols => [.table .dsos, .table .symbols]
  | .view .threads => [.view .machines, .table .threads]
  | .view .commThreads => [.table .comms, .table .threads, .table .commThreads]
  | .view .callPaths => [.table .symbols, .view .symbols, .table .callPaths]
  | .view .calls => [.table .threads, .table .comms, .table .symbols, .table .calls,
    .table .callPaths]
  | .view .samples =>
    [.table .threads, .table .comms, .table .selectedEvents, .table .symbols, .table .dsos,
      .table .branchTypes, .table .samples]
  | .view .ptwrite => [.table .ptwrite, .table .samples]
  | .view .cbr => [.table .cbr, .table .samples]
  | .view .mwait => [.table .mwait, .table .samples]
  | .view .pwre => [.table .pwre, .table .samples]
  | .view .exstop => [.table .exstop, .table .samples]
  | .view .pwrx => [.table .pwrx, .table .samples]
  | .powerEvents =>
    [.table .cbr, .table .mwait, .table .pwre, .table .exstop, .table .pwrx, .table .samples,
      .table .selectedEvents]
  | .view .contextSwitches => [.table .contextSwitches, .table .threads, .table .comms]
  | .view .auxtraceErrors => [.table .auxtraceErrors]
  -- these have no view
  | .view .selectedEvents | .view .comms | .view .branchTypes => []

/-- The table it is about. -/
def Source.name : Source → Table
  | .table t | .view t => t

/-- The options create it. -/
def Source.isCreated (o : Options) : Source → Prop
  | .table t => columns o t ≠ none
  | .view t => createdView o (.view t) = true

/-- It is there. -/
def Source.isIn (db : Db) : Source → Prop
  | .table t => db.tables t ≠ none
  | .view t => db.views (.view t) = true

/-! ## What is dropped -/

/-- Just the views of `vs` are dropped, and the tables with such a view. -/
structure Drops (vs : List View) (db db' : Db) : Prop where
  tables : ∀ u, db'.tables u = if View.view u ∈ vs then none else db.tables u
  views : ∀ v, db'.views v = true ↔ v ∉ vs ∧ db.views v = true

theorem Drops.refl (db : Db) : Drops [] db db where
  tables _ := (if_neg List.not_mem_nil).symm
  views _ := ⟨fun h => ⟨List.not_mem_nil, h⟩, fun h => h.2⟩

theorem Drops.trans {vs vs' : List View} (h : Drops vs db db') (h' : Drops vs' db' db'') :
    Drops (vs ++ vs') db db'' where
  tables u := by
    rw [h'.tables u, h.tables u]
    by_cases hvs' : View.view u ∈ vs'
    · rw [if_pos hvs', if_pos (List.mem_append_right vs hvs')]
    · by_cases hvs : View.view u ∈ vs
      · rw [if_neg hvs', if_pos hvs, if_pos (List.mem_append_left vs' hvs)]
      · rw [if_neg hvs', if_neg hvs, if_neg (List.not_mem_append hvs hvs')]
  views v := by
    rw [h'.views v, h.views v, List.mem_append, not_or]
    exact ⟨fun ⟨hvs', hvs, hv⟩ => ⟨⟨hvs, hvs'⟩, hv⟩, fun ⟨⟨hvs, hvs'⟩, hv⟩ => ⟨hvs', hvs, hv⟩⟩

/-- A drop that does not fail. -/
theorem drop_drops (h : drop t db = .ok db') : Drops [.view t] db db' := by
  unfold drop at h
  cases hview : dropView (.view t) db with
  | error e =>
    rw [hview] at h
    cases h
  | ok d =>
    rw [hview] at h
    have htable : dropTable t d = .ok db' := h
    unfold dropView at hview
    split at hview
    next =>
      cases hview
      unfold dropTable at htable
      split at htable
      · cases htable
      · cases htable
        refine ⟨fun u => ?_, fun v => ?_⟩
        · by_cases hu : u = t
          · subst hu
            rw [if_pos (List.mem_singleton.mpr rfl)]
            exact Function.update_self ..
          · rw [if_neg fun hmem => hu (View.view.inj (List.mem_singleton.mp hmem))]
            exact Function.update_of_ne hu ..
        · by_cases hv : v = .view t
          · subst hv
            simp
          · simp [hv]
    next => cases hview

/-- What the check for emptiness has found. -/
theorem isTableEmpty_ok {empty : Bool} (h : isTableEmpty t db = .ok empty) :
    empty = true ↔ db.rows t = [] := by
  unfold isTableEmpty at h
  unfold Db.rows
  split at h
  · cases h
  next r hr =>
    cases h
    cases r.rows with
    | nil => simp
    | cons x xs => simp

/-- The view of a table that has no row. -/
def unused (db : Db) (t : Table) : List View := if db.rows t = [] then [.view t] else []

/-- A table that is empty is dropped with its view. -/
theorem dropIfEmpty_drops (h : dropIfEmpty t db = .ok db') : Drops (unused db t) db db' := by
  unfold dropIfEmpty at h
  unfold unused
  cases hempty : isTableEmpty t db with
  | error e =>
    rw [hempty] at h
    cases h
  | ok empty =>
    rw [hempty] at h
    have hif : (if empty then drop t db else .ok db) = .ok db' := h
    split at hif
    next hpos =>
      rw [if_pos ((isTableEmpty_ok hempty).mp hpos)]
      exact drop_drops hif
    next hneg =>
      cases hif
      rw [if_neg fun hrows => hneg ((isTableEmpty_ok hempty).mpr hrows)]
      exact .refl db

/-- What the check of some tables has found. -/
theorem areTablesEmpty_ok {ts : List Table} {empty : Bool} (h : areTablesEmpty ts db = .ok empty) :
    empty = true ↔ ∀ t ∈ ts, db.rows t = [] := by
  induction ts with
  | nil =>
    cases h
    exact ⟨fun _ t ht => absurd ht List.not_mem_nil, fun _ => rfl⟩
  | cons t ts ih =>
    unfold areTablesEmpty at h
    cases hempty : isTableEmpty t db with
    | error e =>
      rw [hempty] at h
      cases h
    | ok first =>
      rw [hempty] at h
      have hif : (if first then areTablesEmpty ts db else .ok false) = .ok empty := h
      rw [List.forall_mem_cons, ← isTableEmpty_ok hempty]
      split at hif
      next hpos => rw [ih hif, and_iff_right hpos]
      next hneg =>
        cases hif
        exact ⟨fun hfalse => absurd hfalse Bool.false_ne_true, fun hboth => absurd hboth.1 hneg⟩

/-- The events of which one keeps the tables of all of them. -/
def powerEvents : List Table := [.mwait, .pwre, .exstop, .pwrx]

/-- What `dropPowerEvents` drops. -/
def unusedPower (db : Db) : List View :=
  if ∀ t ∈ powerEvents, db.rows t = [] then .powerEvents :: powerEvents.map .view ++
    unused db .cbr else []

/-- The view of the power events is dropped. -/
theorem dropView_drops {d : Db} (h : dropView .powerEvents db = .ok d) :
    Drops [.powerEvents] db d := by
  unfold dropView at h
  split at h
  next =>
    cases h
    refine ⟨fun u => (if_neg (by simp)).symm, fun v => ?_⟩
    by_cases hv : v = .powerEvents
    · subst hv
      simp
    · simp [hv]
  next => cases h

/-- What is not dropped keeps its rows. -/
theorem Drops.rows_eq {vs : List View} (h : Drops vs db db') (ht : View.view t ∉ vs) :
    db'.rows t = db.rows t := by
  unfold Db.rows
  rw [h.tables t, if_neg ht]

/-- What is not dropped is as unused as it was. -/
theorem Drops.unused_eq {vs : List View} (h : Drops vs db db') (ht : View.view t ∉ vs) :
    unused db' t = unused db t := by
  unfold unused
  rw [h.rows_eq ht]

/-- A program that has not failed has not failed in either part. -/
theorem bind_ok {α β ε : Type*} {x : Except ε α} {f : α → Except ε β} {y : β}
    (h : x.bind f = .ok y) :
    ∃ a, x = .ok a ∧ f a = .ok y := by
  cases x with
  | error e => cases h
  | ok a => exact ⟨a, rfl, h⟩

/-- The tables of the power events that are unused are dropped. -/
theorem dropPowerEvents_drops (h : dropPowerEvents db = .ok db') :
    Drops (unusedPower db) db db' := by
  unfold dropPowerEvents at h
  unfold unusedPower
  obtain ⟨empty, hempty, hif⟩ := bind_ok h
  have hiff : empty = true ↔ ∀ t ∈ powerEvents, db.rows t = [] := areTablesEmpty_ok hempty
  split at hif
  next hpos =>
    obtain ⟨d1, h1, hif⟩ := bind_ok hif
    obtain ⟨d2, h2, hif⟩ := bind_ok hif
    obtain ⟨d3, h3, hif⟩ := bind_ok hif
    obtain ⟨d4, h4, hif⟩ := bind_ok hif
    obtain ⟨d5, h5, h6⟩ := bind_ok hif
    have hfive :=
      ((((dropView_drops h1).trans (drop_drops h2)).trans (drop_drops h3)).trans
      (drop_drops h4)).trans
      (drop_drops h5)
    have hcbr : unused d5 .cbr = unused db .cbr := hfive.unused_eq (by simp)
    rw [if_pos (hiff.mp hpos), ← hcbr]
    exact hfive.trans (dropIfEmpty_drops h6)
  next hneg =>
    cases hif
    rw [if_neg fun hrows => hneg (hiff.mpr hrows)]
    exact .refl db

/-- What `trace_end` drops after the insertions. -/
def unusedAll (db : Db) : List View :=
  unused db .ptwrite ++ unusedPower db ++ unused db .contextSwitches ++ unused db .auxtraceErrors

/-- A table is unused if it is empty. -/
theorem mem_unused {v : View} : v ∈ unused db t ↔ v = .view t ∧ db.rows t = [] := by
  unfold unused
  split <;> simp_all

/-- The power events are unused if all four of their tables are empty. -/
theorem mem_unusedPower {v : View} : v ∈ unusedPower db ↔ (∀ u ∈ powerEvents, db.rows u = []) ∧
    (v = .powerEvents ∨ (∃ u ∈ powerEvents, v = .view u) ∨ v = .view .cbr ∧ db.rows .cbr = []) := by
  unfold unusedPower
  split
  next hrows =>
    rw [List.cons_append, List.mem_cons, List.mem_append, List.mem_map, mem_unused,
      and_iff_right hrows]
    simp only [eq_comm]
  next hrows => exact ⟨fun h => absurd h List.not_mem_nil, fun h => absurd h.1 hrows⟩

/-- `trace_end` drops what is unused. -/
theorem drops_drops
    (h : ((dropIfEmpty .ptwrite db).bind fun db => (dropPowerEvents db).bind fun db =>
    (dropIfEmpty .contextSwitches db).bind fun db => dropIfEmpty .auxtraceErrors db) = .ok db') :
    Drops (unusedAll db) db db' := by
  obtain ⟨d1, h1, h⟩ := bind_ok h
  obtain ⟨d2, h2, h⟩ := bind_ok h
  obtain ⟨d3, h3, h4⟩ := bind_ok h
  have hd1 := dropIfEmpty_drops h1
  have hpower : unusedPower d1 = unusedPower db := by
    have hrows : ∀ t ∈ powerEvents, d1.rows t = db.rows t := by
      intro t ht
      refine hd1.rows_eq fun hmem => ?_
      obtain rfl := View.view.inj (mem_unused.mp hmem).1
      revert ht
      decide
    have hcbr : unused d1 .cbr = unused db .cbr := hd1.unused_eq fun hmem =>
      absurd (mem_unused.mp hmem).1 (by decide)
    unfold unusedPower
    rw [hcbr]
    exact if_congr (forall₂_congr fun t ht => by rw [hrows t ht]) rfl rfl
  have hd2 := hd1.trans (dropPowerEvents_drops h2)
  rw [hpower] at hd2
  have hswitches : unused d2 .contextSwitches = unused db .contextSwitches := by
    refine hd2.unused_eq fun hmem => ?_
    rw [List.mem_append, mem_unused, mem_unusedPower] at hmem
    simp [powerEvents] at hmem
  have hd3 := hd2.trans (dropIfEmpty_drops h3)
  rw [hswitches] at hd3
  have herrors : unused d3 .auxtraceErrors = unused db .auxtraceErrors := by
    refine hd3.unused_eq fun hmem => ?_
    rw [List.mem_append, List.mem_append, mem_unused, mem_unusedPower, mem_unused] at hmem
    simp [powerEvents] at hmem
  have hd4 := hd3.trans (dropIfEmpty_drops h4)
  rw [herrors] at hd4
  exact hd4

/-! ## What is left -/

/-- The tables that are kept or dropped with those of the power events, of which `cbr` may stay
alone. -/
def powerTables : List Table := .cbr :: powerEvents

/-- The tables that are dropped. -/
theorem view_mem_unusedAll : View.view t ∈ unusedAll db ↔
    t ∈ droppable ∧ db.rows t = [] ∧ (t ∈ powerTables → ∀ u ∈ powerEvents, db.rows u = []) := by
  unfold unusedAll
  rw [List.mem_append, List.mem_append, List.mem_append, mem_unused, mem_unusedPower, mem_unused,
    mem_unused]
  cases t <;> simp [droppable, powerTables, powerEvents] <;> tauto

/-- When the view of the power events is. -/
theorem powerEvents_mem_unusedAll : View.powerEvents ∈ unusedAll db ↔
    ∀ u ∈ powerEvents, db.rows u = [] := by
  unfold unusedAll
  rw [List.mem_append, List.mem_append, List.mem_append, mem_unused, mem_unusedPower, mem_unused,
    mem_unused]
  simp

/-- The tables that a view is for. -/
def View.tables : View → List Table
  | .view t => [t]
  | .powerEvents => powerTables

/-- A view that is created reads tables and views that are. -/
theorem reads_created {v : View} (hv : createdView o v = true) :
    ∀ source ∈ v.reads, source.isCreated o := by
  cases v with
  | powerEvents => simp [View.reads, Source.isCreated, columns, schema]
  | view t => cases t <;> simp_all [View.reads, Source.isCreated, columns, schema, createdView]

/-- Of the tables that may be dropped a view selects from those it is for. -/
theorem reads_droppable {v : View} : ∀ source ∈ v.reads, source.name ∈ droppable →
    source.name ∈ v.tables := by
  cases v with
  | powerEvents => decide
  | view t => cases t <;> decide

/-- A view over a table that may be dropped reads it by name. -/
theorem exists_reads {v : View} : ∀ t ∈ v.tables, t ∈ droppable →
    ∃ source ∈ v.reads, source.name = t := by
  cases v with
  | powerEvents => decide
  | view t => cases t <;> decide

/-- A view stays exactly if all its tables do. -/
theorem view_stays {v : View} : v ∉ unusedAll db ↔ ∀ t ∈ v.tables, View.view t ∉ unusedAll db := by
  cases v with
  | view t =>
    refine ⟨fun hview u hu => ?_, fun hall => hall t (List.mem_singleton.mpr rfl)⟩
    obtain rfl := List.mem_singleton.mp hu
    exact hview
  | powerEvents =>
    rw [powerEvents_mem_unusedAll]
    constructor
    · intro hpower t ht hmem
      exact hpower ((view_mem_unusedAll.mp hmem).2.2 ht)
    · intro hall hrows
      exact hall .mwait (by decide) (view_mem_unusedAll.mpr
        ⟨by decide, hrows .mwait (by decide), fun _ => hrows⟩)

/-- A view stays exactly if what it selects from does. -/
theorem view_stays_iff {v : View} :
    v ∉ unusedAll db ↔ ∀ source ∈ v.reads, View.view source.name ∉ unusedAll db := by
  rw [view_stays]
  constructor
  · intro htables source hsource hmem
    exact htables _ (reads_droppable source hsource (view_mem_unusedAll.mp hmem).1) hmem
  · intro hreads t ht hmem
    obtain ⟨source, hsource, rfl⟩ := exists_reads t ht (view_mem_unusedAll.mp hmem).1
    exact hreads source hsource hmem

/-- Something is filed in the table. -/
def Used (o : Options) (cs : List Callback) (t : Table) : Prop :=
  ∃ c ∈ traceBegin o ++ cs, rowOf t (c.files o) ≠ []

/-- An export that does not fail: the rows that were filed are inserted, and what is unused is
dropped. -/
theorem exportTrace_drops (h : exportTrace o cs = .ok db) :
    ∃ d, Drops (unusedAll d) d db ∧ d.views = createdView o ∧
      (∀ t, d.tables t ≠ none ↔ columns o t ≠ none) ∧ ∀ t, d.rows t = [] ↔ ¬ Used o cs t := by
  obtain ⟨b, hall, hend⟩ := bind_ok h
  obtain ⟨d, hins, hdrops⟩ := bind_ok hend
  obtain ⟨hpower, hhas⟩ := inserted_has hins
  obtain ⟨d', hd', hrows⟩ := drops_dropped hpower hhas
  obtain rfl := Except.ok.inj (hdrops.symm.trans hd')
  obtain ⟨_, -, htables⟩ := inserted hins
  refine ⟨d, drops_drops hdrops, (insertAll_ok hins (by decide)).1, fun t => ?_, fun t => ?_⟩
  · unfold columns
    rw [htables t, ne_eq, ne_eq, Option.map_eq_none_iff, Option.map_eq_none_iff]
  · have hlength := ((exportTrace_ok h).1 t).length_eq
    rw [← hrows t, ← List.length_eq_zero_iff, hlength, List.length_eq_zero_iff]
    unfold filedRows Used
    rw [List.flatMap_eq_nil_iff]
    push Not
    rfl

/-- **What is left of the tables and the views.** -/
theorem export_schema (h : exportTrace o cs = .ok db) :
    (∀ t, db.tables t ≠ none ↔ columns o t ≠ none ∧
      (t ∈ droppable → Used o cs t ∨ t ∈ powerTables ∧ ∃ u ∈ powerEvents, Used o cs u)) ∧
      ∀ v, db.views v = true ↔ createdView o v = true ∧ ∀ source ∈ v.reads, source.isIn db := by
  obtain ⟨d, hdrops, hviews, hcreated, hused⟩ := exportTrace_drops h
  have htable : ∀ t, db.tables t ≠ none ↔ columns o t ≠ none ∧ View.view t ∉ unusedAll d := by
    intro t
    rw [hdrops.tables t, ← hcreated t]
    split
    next hmem => exact ⟨fun hne => absurd rfl hne, fun hboth => absurd hmem hboth.2⟩
    next hmem => exact ⟨fun hne => ⟨hne, hmem⟩, fun hboth => hboth.1⟩
  have hview : ∀ v, db.views v = true ↔ createdView o v = true ∧ v ∉ unusedAll d := by
    intro v
    rw [hdrops.views v, hviews, and_comm]
  refine ⟨fun t => ?_, fun v => ?_⟩
  · rw [htable t, view_mem_unusedAll]
    refine and_congr_right fun _ => ?_
    simp only [hused]
    push Not
    simp only [or_iff_not_imp_left]
  · have hsource : ∀ source : Source, source.isIn db ↔ source.isCreated o ∧
        View.view source.name ∉ unusedAll d := by
      intro source
      cases source with
      | table t => exact htable t
      | view t => exact hview (.view t)
    rw [hview v, view_stays_iff]
    simp only [hsource]
    exact and_congr_right fun hv => forall₂_congr fun source hmem =>
      (and_iff_right (reads_created hv source hmem)).symm

/-- A trace with one `mwait` record: the empty `cbr` stays for the view of the power events. -/
theorem export_schema_mwait : ∃ db,
    exportTrace ⟨true, false, false⟩ [.synthData 7 1 [0, 0, 0, 0, 32, 0, 0, 0, 1, 0, 0, 0]] =
      .ok db ∧ db.tables .cbr ≠ none ∧ db.views .powerEvents = true := by
  obtain ⟨db, hdb, -⟩ : Exports ⟨true, false, false⟩
      [.synthData 7 1 [0, 0, 0, 0, 32, 0, 0, 0, 1, 0, 0, 0]] := by
    refine exports_of_sound (fun c hc => ?_) (fun hchains => absurd hchains Bool.false_ne_true)
      (fun c hc => ?_) fun t cols hcols => ?_
    · obtain rfl := List.mem_singleton.mp hc
      trivial
    · obtain rfl := List.mem_singleton.mp hc
      exact ⟨by decide, by decide, fun heq => absurd heq (by decide)⟩
    · cases t <;> cases hcols <;> decide
  obtain ⟨htables, hviews⟩ := export_schema hdb
  have hmwait : ∃ u ∈ powerEvents,
      Used ⟨true, false, false⟩ [.synthData 7 1 [0, 0, 0, 0, 32, 0, 0, 0, 1, 0, 0, 0]] u :=
    ⟨.mwait, by decide, _, List.mem_append_right _ (List.mem_singleton.mpr rfl),
      List.cons_ne_nil _ _⟩
  have hpower : ∀ t ∈ powerTables, db.tables t ≠ none := by
    intro t ht
    refine (htables t).mpr ⟨?_, fun _ => Or.inr ⟨ht, hmwait⟩⟩
    revert t
    decide
  have hstays : ∀ t ∉ droppable, columns ⟨true, false, false⟩ t ≠ none → db.tables t ≠ none :=
      fun t ht hcolumns =>
    (htables t).mpr ⟨hcolumns, fun hdroppable => absurd hdroppable ht⟩
  have hreads : ∀ source ∈ View.powerEvents.reads, source.isIn db := by
    simp only [View.reads, List.forall_mem_cons]
    exact ⟨hpower .cbr (by decide), hpower .mwait (by decide), hpower .pwre (by decide),
      hpower .exstop (by decide), hpower .pwrx (by decide), hstays .samples (by decide) (by decide),
        hstays .selectedEvents (by decide) (by decide),
      fun _ hnil => absurd hnil List.not_mem_nil⟩
  exact ⟨db, hdb, hpower .cbr (by decide), (hviews .powerEvents).mpr ⟨rfl, hreads⟩⟩

end ShouldIAsync.IntelProcTrace.Export
