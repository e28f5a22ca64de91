import StaticAnalysis.Code.Outline
import StaticAnalysis.Report

/-!
# Reports on code

`Assembly.report` writes out all declarations of a program.
-/

namespace StaticAnalysis

/-- A type by name; nothing if it is not known. -/
def Ty.report : Ty → Report
  | .unknown => .none
  | t => .text t.text

namespace CodeBase

variable (code : CodeBase)

def classReport (c : Class) : Report :=
  let info := code.info c
  .record
    [("name", .text c.name), ("repr", .text c.describe),
      ("super", .optionalText info.links.superclass Class.name),
      ("interfaces", .texts (info.links.interfaces.map Class.name)),
      ("interface", .flag c.isInterface), ("abstract", .flag c.isAbstract),
      ("methods", .each info.methods.entries fun e => .texts [e.1, e.2.signature]),
      ("fields", .each info.fields.entries fun e => .texts [e.1, e.2.text])]

/-- A statement at its place. One that has no text is listed without it. -/
def stmtReport (s : Stmt) : Report :=
  .record
    [("i", .count s.index), ("kind", .text s.kindText), ("str", .optionalText s.text? id),
      ("repr", .optionalText s.text? Stmt.described), ("def", .optionalText s.defines? Var.text),
      ("uses", .texts (s.uses.map Operand.text))]

def methodReport (m : Method) : Report :=
  let body := code.body m
  let typed := fun v : Var => Report.list [.text v.text, v.type.report]
  .record
    [("str", .text m.signature), ("repr", .text m.describe), ("qualified", .text m.qualifiedName),
      ("subsignature", .text m.subsignature), ("static", .flag m.isStatic),
      ("abstract", .flag m.isAbstract), ("ref", .text m.target.text),
      ("params", .each m.params typed), ("this", .optional m.this? typed),
      ("vars", .each body.vars fun v => .list [.text v.name, .text v.describe, v.type.report]),
      ("returns", .texts (body.returnVars.map Var.text)), ("stmts", .each body.stmts stmtReport)]

end CodeBase

/-- All declarations, in order; `faults` are those that a lenient outline has passed over. -/
def Assembly.report (a : Assembly) (p : Program) (faults : Report) : Report :=
  .record
    [("classes", .each a.classes.values a.code.classReport),
      ("methods", .each a.methods.values a.code.methodReport),
      ("fields", .each a.fields.values fun f => .texts [f.text, f.describe]),
      ("errors", faults), ("entries", .texts (p.entries.map Method.signature))]

end StaticAnalysis
