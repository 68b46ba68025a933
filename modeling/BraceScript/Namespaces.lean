import BraceScript.Program
import BraceScript.Options.Basic

/-!
# Packages

A package has a version, functions and keywords.  A keyword is live while a function of its
name is installed; its function can go and leave the keyword declared.
-/

namespace BraceScript

/-- What happens where a keyword is read. -/
inductive Keyword where
  /-- The declaration is expanded for a feature with its options. -/
  | expand (feature : BlockFeature) (options : KeywordOptions)
  /-- Nothing happens. -/
  | idle
deriving Inhabited

/-- A package. -/
structure Package where
  version : Option String := none
  functions : Table String Function := []
  keywords : Table String Keyword := []
deriving Inhabited

/-- All packages by name, in order of declaration. -/
abbrev Namespaces := Table String Package

namespace Namespaces

/-- The package in which a program starts. -/
def startPackage : String := "main"

/-- The start package alone. -/
def initial : Namespaces := [(startPackage, {})]

/-- Changes a package, which is declared if it is not yet known. -/
def modify (ns : Namespaces) (package : String) (f : Package → Package) : Namespaces :=
  Table.put ns package (f ((Table.get? ns package).getD {}))

/-- Declares a package. -/
def declare (ns : Namespaces) (package : String) : Namespaces :=
  ns.modify package id

/-- Sets the version of a package. -/
def setVersion (ns : Namespaces) (package literal : String) : Namespaces :=
  ns.modify package fun p => { p with version := some literal }

/-- The version of a package. -/
def version? (ns : Namespaces) (package : String) : Option String :=
  (Table.get? ns package).bind (·.version)

/-- Installs a function. -/
def installFunction (ns : Namespaces) (package name : String) (f : Function) : Namespaces :=
  ns.modify package fun p => { p with functions := Table.put p.functions name f }

/-- Takes a function out of a package, if the package is known. -/
def removeFunction (ns : Namespaces) (package name : String) : Namespaces :=
  if Table.contains ns package then
    ns.modify package fun p => { p with functions := Table.erase p.functions name }
  else ns

/-- The function of a name. -/
def function? (ns : Namespaces) (package name : String) : Option Function :=
  (Table.get? ns package).bind fun p => Table.get? p.functions name

/-- Declares a keyword, or turns it off. -/
def declareKeyword (ns : Namespaces) (package name : String) (keyword : Option Keyword) :
    Namespaces :=
  ns.modify package fun p => { p with keywords := match keyword with
    | some keyword => Table.put p.keywords name keyword
    | none => Table.erase p.keywords name }

/-- The keyword of a name, live or not. -/
def declaredKeyword? (ns : Namespaces) (package name : String) : Option Keyword :=
  (Table.get? ns package).bind fun p => Table.get? p.keywords name

/-- The live keyword of a name. -/
def keyword? (ns : Namespaces) (package name : String) : Option Keyword :=
  if (ns.function? package name).isSome then ns.declaredKeyword? package name else none

end Namespaces

end BraceScript
