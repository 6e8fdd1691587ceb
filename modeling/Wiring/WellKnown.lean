import Wiring.Metadata.ClassInfo

/-!
# Well-known types

The names of the tag types and capability interfaces that resolution interprets, and the order
that the order tag gives to a class.
-/

namespace Wiring
namespace WellKnown

def configuration : String := "org.springframework.context.annotation.Configuration"
def component : String := "org.springframework.stereotype.Component"
def service : String := "org.springframework.stereotype.Service"
def repository : String := "org.springframework.stereotype.Repository"
def controller : String := "org.springframework.stereotype.Controller"
def componentScan : String := "org.springframework.context.annotation.ComponentScan"
def componentScans : String := "org.springframework.context.annotation.ComponentScans"
def importTag : String := "org.springframework.context.annotation.Import"
def importResource : String := "org.springframework.context.annotation.ImportResource"
def bean : String := "org.springframework.context.annotation.Bean"
def propertySource : String := "org.springframework.context.annotation.PropertySource"
def propertySources : String := "org.springframework.context.annotation.PropertySources"
def profile : String := "org.springframework.context.annotation.Profile"
def conditional : String := "org.springframework.context.annotation.Conditional"
def order : String := "org.springframework.core.annotation.Order"

def importSelector : String := "org.springframework.context.annotation.ImportSelector"
def deferredImportSelector : String :=
  "org.springframework.context.annotation.DeferredImportSelector"
def registrar : String :=
  "org.springframework.context.annotation.ImportBeanDefinitionRegistrar"
def propertySourceFactory : String :=
  "org.springframework.core.io.support.PropertySourceFactory"
def definitionReader : String :=
  "org.springframework.beans.factory.support.BeanDefinitionReader"

/-- The root of the class hierarchy. -/
def object : String := "java.lang.Object"

/-- The tags that make a class a component. -/
def stereotypes : List String := [component, configuration, service, repository, controller]

/-- The tags that make a class without `@Configuration` a configuration candidate. -/
def candidateIndicators : List String := [component, componentScan, importTag, importResource]

end WellKnown

/-- The order of anything that declares none; it comes last. -/
def lowestPrecedence : Int := 2147483647

/-- The least order; it comes first. -/
def highestPrecedence : Int := -2147483648

/-- Orders have 32 bits; values outside are cut off at the ends. -/
def clampOrder (i : Int) : Int := max highestPrecedence (min i lowestPrecedence)

/-- The order that the order tag on the class declares. -/
def ClassInfo.order (c : ClassInfo) : Int :=
  match (c.tag? WellKnown.order).bind (·.int? "value") with
  | some i => clampOrder i
  | none => lowestPrecedence

end Wiring
